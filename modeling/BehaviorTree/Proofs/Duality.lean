import BehaviorTree.Proofs.Dual
import BehaviorTree.Proofs.ReflectedInPlace
import BehaviorTree.Proofs.Schedules
import BehaviorTree.Proofs.Simulation

/-!
# Duality

The dual of a tree gives the inverted outcome, after the same calls and with the same variables
(`dual_inverts`): on a machine whose tasks take their steps in any order, as long as the order is
the same for both, on the machine with its own order, and in place.
-/

namespace BehaviorTree

/-- Worlds with the same variables, after the same calls of leaves. -/
structure World.Alike (world other : World) : Prop where
  calls : other.calls = world.calls
  store : other.store = world.store

theorem World.alike_of_quiet_eq {world other : World} (h : other.quiet = world.quiet) :
    world.Alike other := by
  have hcalls : ∀ world : World, world.quiet.calls = world.calls := fun world => by
    unfold calls quiet
    rw [List.filter_filter]
    refine List.filter_congr fun event _ => ?_
    cases event <;> rfl
  refine ⟨?_, ?_⟩
  · rw [← hcalls other, h, hcalls world]
  · have hstore := congrArg World.store h
    exact hstore

namespace Node

theorem traced_formed {trace : Trace} {node : Node} {body : Trace → Process}
    (h : (body (trace.inside node.info)).Formed true) :
    (traced trace node body).Formed true := by
  unfold traced
  exact Process.emitAll_formed (h.bind fun outcome => Process.emitAll_formed (.done outcome) _) _

theorem chain_formed : ∀ {children : List Node},
    (∀ child ∈ children, ∀ trace input, (child.process trace input).Formed true) →
    ∀ (whileSuccess : Bool) (trace : Trace) (outcome : Outcome),
    (chain whileSuccess children trace outcome).Formed true
  | [], _, whileSuccess, trace, outcome => by
    rw [chain]
    exact .done outcome
  | child :: rest, h, whileSuccess, trace, outcome => by
    have ih := chain_formed fun c hc => h c (List.mem_cons_of_mem child hc)
    rw [chain]
    split
    · exact (h child List.mem_cons_self trace _).bind fun outcome => ih whileSuccess trace outcome
    · exact .done outcome

theorem branches_formed : ∀ {children : List Node},
    (∀ child ∈ children, ∀ trace input, (child.process trace input).Formed true) →
    ∀ (trace : Trace) (input : Value),
    ∀ branch ∈ branches children trace input, branch.2.Formed true
  | [], _, _, _, branch, hbranch => by cases hbranch
  | child :: rest, h, trace, input, branch, hbranch => by
    rw [branches] at hbranch
    rcases List.mem_cons.1 hbranch with rfl | hbranch
    · exact h child List.mem_cons_self trace input
    · exact branches_formed (fun c hc => h c (List.mem_cons_of_mem child hc)) trace input branch
        hbranch

theorem process_formed (tree : Node) : ∀ trace input, (tree.process trace input).Formed true := by
  induction tree using Node.induction with
  | step tree ih =>
    intro trace input
    cases tree with
    | leaf info path action =>
      rw [process]
      exact traced_formed (Process.emitAll_formed
        (.emit _ (Action.process_formed info.scope input action)) _)
    | sequence info children | selector info children =>
      rw [process]
      exact traced_formed (chain_formed ih _ _ _)
    | parallel info policy children =>
      rw [process]
      refine traced_formed ?_
      cases children with
      | nil => exact .done _
      | cons child rest =>
        exact .parallel policy input rfl (by simp [branches]) (branches_formed ih _ input) .done
    | decorator info d child =>
      rw [process]
      exact traced_formed ((ih child List.mem_cons_self _ input).bind fun outcome => .done _)

end Node

namespace Machine

theorem reflect_begin (on : Bool) (process : Process) (world : World) :
    (begin process world).reflect on = begin (process.reflect on on) world.quiet := by
  simp [begin, reflect, Task.reflect, Task.runsNode, TaskState.reflect]

/-- A called task whose machine is another's turned over has the other's outcome turned over. -/
theorem outcome?_of_reflect_eq {machine other : Machine}
    (h : other.reflect false = machine.reflect true) {id : TaskId}
    (hcalled : (machine.task id).called) :
    other.outcome? id = (machine.outcome? id).map Outcome.invert := by
  have houtcome := congrArg (·.outcome? id) h
  simp only [reflect_outcome?, Task.runsNode, hcalled, Bool.false_and, Bool.true_or, Bool.true_and,
    Outcome.flip_false, Option.map_id_fun', id_eq] at houtcome
  exact houtcome

end Machine

/-- The dual of a tree, on the same input in the same world, comes to the inverted outcome with the
same calls and variables: after any schedule, if the tree comes to an outcome in it; in the order of
the machine; and in place, also once everything that was left over is done. Tracing may be switched
on for one of the two and off for the other. -/
theorem dual_inverts (tree : Node) (hparallel : tree.NoEmptyParallel) (trace trace' : Trace)
    (input : Value) (world : World) :
    (∀ schedule : List Move,
      let machine := (Machine.begin (tree.process trace input) world).follow schedule
      let dual := (Machine.begin (tree.dual.process trace' input) world).follow schedule
      dual.outcome? 0 = (machine.outcome? 0).map Outcome.invert
        ∧ machine.world.Alike dual.world)
    ∧ (let result := Machine.call { world } [tree.process trace input]
      let dual := Machine.call { world } [tree.dual.process trace' input]
      dual.1 = result.1.map (Option.map Outcome.invert) ∧ result.2.world.Alike dual.2.world)
    ∧ (let result := (tree.process trace input).inPlace world
      let dual := (tree.dual.process trace' input).inPlace world
      dual.outcome = result.outcome.invert ∧ result.world.Alike dual.world
        ∧ result.drain.Alike dual.drain) := by
  have hprocess := Node.process_dual hparallel trace trace' input
  refine ⟨fun schedule => ?_, ?_, ?_⟩
  · have hbegin : (Machine.begin (tree.dual.process trace' input) world).reflect false
        = (Machine.begin (tree.process trace input) world).reflect true := by
      rw [Machine.reflect_begin, Machine.reflect_begin, hprocess]
    have hfollow := congrArg (·.follow schedule) hbegin
    simp only [← Machine.reflect_follow] at hfollow
    have hretains := (Machine.begin (tree.process trace input) world).retains_follow schedule
    have hcalled := hretains.called 0 (by simp [Machine.begin])
    exact ⟨Machine.outcome?_of_reflect_eq hfollow hcalled,
      World.alike_of_quiet_eq (congrArg Machine.world hfollow)⟩
  · have hstart : ({ world } : Machine).reflect false = ({ world } : Machine).reflect true := by
      simp [Machine.reflect]
    have hdual := Machine.reflect_call false { world } [tree.dual.process trace' input]
    have hcall := Machine.reflect_call true { world } [tree.process trace input]
    rw [hstart, List.map_singleton, hprocess] at hdual
    rw [List.map_singleton, hdual] at hcall
    obtain ⟨houtcomes, hmachine⟩ := Prod.mk.inj hcall
    have hsame : ∀ outcomes : List (Option Outcome),
        outcomes.map (Option.map (·.flip false)) = outcomes := by
      simp
    rw [hsame] at houtcomes
    exact ⟨houtcomes, World.alike_of_quiet_eq (congrArg Machine.world hmachine)⟩
  · have hdual := (Node.process_formed tree.dual trace' input).inPlace_reflects false false world
    have hresult := (Node.process_formed tree trace input).inPlace_reflects true true world
    rw [hprocess] at hdual
    refine ⟨?_, World.alike_of_quiet_eq (hdual.world.symm.trans hresult.world),
      World.alike_of_quiet_eq (hdual.drain.symm.trans hresult.drain)⟩
    exact hdual.outcome.symm.trans hresult.outcome

/-- One failure of two children decides a parallel node, and the first task of its machine ends with
that failure. In the same schedule the task of the dual ends with a success. -/
theorem dual_inverts_of_failure :
    let info : NodeInfo :=
      { title := none, debug := none, waitForMe := false, convention := .plain, scope := ⟨0, []⟩ }
    let good := Node.leaf info none (.plain fun v => .done (.ok v))
    let bad := Node.leaf info none (.plain fun v => .done (.error v))
    let tree := Node.parallel info { maxFail := .count 1 } [good, bad]
    let trace : Trace := { enabled := false, indent := 4 }
    let schedule : List Move := [.step 0, .step 2, .step 2, .step 0, .step 0]
    let outcome (tree : Node) :=
      ((Machine.begin (tree.process trace .null) {}).follow schedule).outcome? 0
    tree.NoEmptyParallel ∧ (outcome tree).map Outcome.isSuccess = some false
      ∧ (outcome tree.dual).map Outcome.isSuccess = some true := by
  intro info good bad tree trace schedule outcome
  have hparallel : tree.NoEmptyParallel := by
    rintro (_ | ⟨_ | _ | i, _ | ⟨j, rest⟩⟩) info policy h <;>
      simp [Node.at?, tree, good, bad, Node.children] at h
  have hfailure : (outcome tree).map Outcome.isSuccess = some false := by
    decide +kernel
  have hinverted : outcome tree.dual = (outcome tree).map Outcome.invert :=
    ((dual_inverts tree hparallel trace trace .null {}).1 schedule).1
  refine ⟨hparallel, hfailure, ?_⟩
  obtain ⟨ended, hended, htag⟩ := Option.map_eq_some_iff.1 hfailure
  rw [hinverted, hended]
  simp [htag]

end BehaviorTree
