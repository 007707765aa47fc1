import BehaviorTree.Proofs.Endings

/-!
# The outcome of a parallel node, and when it returns

Children may come in in any order. The first of them with which a threshold is reached decides, or
else the last of all (`parallel_gives_first_decisive`), whatever flags they carry, and nothing that
comes in later changes that. The flags say only how many completions the node takes in before it
returns (`parallel_returns_after`); the other children come to their end all the same.
-/

namespace BehaviorTree

/-- The flags of the node and of its children do not matter for the outcome. -/
theorem parallel_congr_flags (policy : Policy) (input : Value) (flags flags' : List Bool)
    (waitForAll : Bool) (outcome : Nat → Outcome) {order : List Nat} (hne : order ≠ []) :
    (parallel { policy with waitForAll } input (completionsOf flags' outcome order)).1
      = (parallel policy input (completionsOf flags outcome order)).1 := by
  have hcompletions : ∀ fs, completionsOf fs outcome order ≠ [] := fun fs => by
    simpa [completionsOf] using hne
  have h : policy.Gives _ _ := parallel_gives input (hcompletions flags)
  have h' : Policy.Gives { policy with waitForAll } _ _ :=
    parallel_gives input (hcompletions flags')
  rw [map_snd_completionsOf] at h h'
  exact Policy.Gives.unique h' h

/-- The first child to come in with which a threshold is reached decides, in whatever order
children come in; without one the last child's outcome is the result. What comes in after the
decision does not change it. This is what a node on a machine goes on with, whatever else happens
while it waits, and in place the same rule holds. -/
theorem parallel_gives_first_decisive (policy : Policy) (input : Value)
    (children : List (Bool × Process)) (outcome : Nat → Outcome) (order : List Nat)
    (hne : children ≠ []) (horder : order.Perm (List.range children.length)) :
    policy.Gives (order.map outcome)
        (parallel policy input (completionsOf (children.map (·.1)) outcome order)).1
      ∧ (∀ k late, policy.FirstDecides (order.map outcome) k →
        k + 1 + late.length = children.length →
        (parallel policy input
            ((completionsOf (children.map (·.1)) outcome order).take (k + 1) ++ late)).1
          = (parallel policy input (completionsOf (children.map (·.1)) outcome order)).1)
      ∧ (∀ (next : Outcome → Process) (id : TaskId) (start machine : Machine),
        id < start.tasks.size →
        (start.carryOut id (.parallel policy input children next)).Waiting id outcome order
          machine →
        ∃ m, machine.Returns id m next
          (parallel policy input (completionsOf (children.map (·.1)) outcome order)).1)
      ∧ ∀ world : World,
        policy.Gives ((Process.completions (Process.inTurn children world)).map Prod.snd)
          (Process.inPlace (.parallel policy input children .done) world).outcome := by
  have hlen : order.length = children.length := by rw [horder.length_eq, List.length_range]
  have hpos := List.length_pos_iff.2 hne
  have hcompletions : completionsOf (children.map (·.1)) outcome order ≠ [] :=
    List.ne_nil_of_length_pos (by simpa [hlen])
  refine ⟨?_, fun k late hk hlate => ?_, fun next id start machine hid hwaiting => ?_,
    fun world => ?_⟩
  · have h : policy.Gives _ _ := parallel_gives input hcompletions
    rwa [map_snd_completionsOf] at h
  · exact parallel_congr_late input (by simpa using hk) (by simpa [hlen] using hlate)
  · obtain ⟨m, t, -, -, hm⟩ := exists_parallel_eq policy input
      (completionsOf (children.map (·.1)) outcome order)
    have hle : m ≤ order.length := by
      have := hm.2 (.inl le_rfl)
      rwa [length_completionsOf] at this
    exact ⟨m, ((hwaiting.turn_returns hne horder hid hm (List.prefix_refl _)).2 hle).returns⟩
  · obtain ⟨m, t, hafter, hm, heq⟩ :=
      Process.exists_inPlace_parallel policy input children .done world
    have hruns : Process.completions (Process.inTurn children world) ≠ [] := by
      refine List.ne_nil_of_length_pos ?_
      rwa [Process.completions, List.length_map, Process.length_inTurn]
    have h := hafter.result_of_returns hm hruns input
    rwa [heq]

/-- The last of three children comes in first and fails, and the next decides. -/
theorem parallel_gives_first_decisive_of_three :
    (parallel { maxSuccess := .count 1 } .null (completionsOf [false, true, false]
        (fun i => if i = 2 then .failure .null else .success (.bool (i = 0))) [2, 0, 1])).1
      = .success (.bool true)
    ∧ Policy.Gives { maxSuccess := .count 1 }
      [.failure .null, .success (.bool true), .success (.bool false)] (.success (.bool true)) :=
  ⟨rfl, (parallel_gives_first_decisive { maxSuccess := .count 1 } .null
    [(false, .done default), (true, .done default), (false, .done default)]
    (fun i => if i = 2 then .failure .null else .success (.bool (i = 0))) [2, 0, 1]
    (by simp) (by decide)).1⟩

/-- A node takes in all completions, or as many as it takes for the decision and for the children
to be waited for, and the flags change nothing else. Each child is either taken in or left over, and
runs to its end once. On a machine it gets one task, which the node leaves as it is when it returns;
in a fair schedule that task comes to an outcome, which it keeps. (The machines of a run are all
linked, and runs of nodes are formed.) In place it runs at once, or is left for later and runs when
what is left over is done. -/
theorem parallel_returns_after (policy : Policy) (input : Value)
    (children : List (Bool × Process)) (outcome : Nat → Outcome) (order : List Nat)
    (hne : children ≠ []) (horder : order.Perm (List.range children.length)) :
    (∃ m, policy.TakesIn (completionsOf (children.map (·.1)) outcome order) m
      ∧ (parallel policy input (completionsOf (children.map (·.1)) outcome order)).2
        = completionsOf (children.map (·.1)) outcome (order.drop m)
      ∧ ∀ (next : Outcome → Process) (id : TaskId) (came : List Nat) (start machine : Machine),
        id < start.tasks.size → came <+: order →
        (start.carryOut id (.parallel policy input children next)).Waiting id outcome came
          machine →
        (came.length < m → ∃ join, ((machine.turn id).task id).state = .joining join)
          ∧ (m ≤ came.length →
            machine.ReturnsLeaving id m (List.range' start.tasks.size children.length) next
              (parallel policy input (completionsOf (children.map (·.1)) outcome order)).1))
      ∧ (∀ flags waitForAll,
        (parallel { policy with waitForAll } input (completionsOf flags outcome order)).1
          = (parallel policy input (completionsOf (children.map (·.1)) outcome order)).1)
      ∧ (∀ (next : Outcome → Process) (id : TaskId) (start : Machine), id < start.tasks.size →
        let started := start.carryOut id (.parallel policy input children next)
        started.tasks.size = start.tasks.size + children.length
          ∧ (∀ i child, children[i]? = some child →
            started.task (start.tasks.size + i) = Machine.branch id i child.2)
          ∧ (start.Linked → (start.task id).state.isEnded = false →
            (∀ child ∈ children, child.2.Formed true) → ∀ schedule, FairSchedule schedule →
            ∀ i < children.length, ∃ t o, ∀ u ≥ t,
              (started.pursue ((List.range u).map schedule)).outcome? (start.tasks.size + i)
                = some o))
      ∧ (∀ (machine : Machine) (join : Join),
        machine.Keeps (machine.drain join) ∧ Machine.Drains join machine (machine.drain join))
      ∧ ∀ world : World, ∃ m,
        policy.TakesIn (Process.completions (Process.inTurn children world)) m
          ∧ let taken := (Process.inTurn children world).take m
            let result := Process.inPlace (.parallel policy input children .done) world
            result.world = Process.worldAfter world taken
              ∧ result.leftovers
                = taken.flatMap (·.2.leftovers) ++ (children.drop m).map Process.leftover
              ∧ result.drain = (children.drop m).foldl
                  (fun world child => (child.2.inPlace world).drain)
                  ((taken.flatMap (·.2.leftovers)).foldl (fun world work => work world)
                    result.world) := by
  have hlen : order.length = children.length := by rw [horder.length_eq, List.length_range]
  have hpos := List.length_pos_iff.2 hne
  refine ⟨?_, fun flags waitForAll => ?_, fun next id start hid => ⟨?_, fun i child hi =>
    start.task_carryOut_parallel hid policy input next hi, fun hlinked hlive hformed schedule hfair
      i hi => Machine.exists_outcome_of_child hlinked hid hlive policy input hformed next hfair hi⟩,
    fun machine join => ⟨machine.drain_keeps join, machine.drains_drain join⟩, fun world => ?_⟩
  · obtain ⟨m, t, heq, -, hm⟩ := exists_parallel_eq policy input
      (completionsOf (children.map (·.1)) outcome order)
    refine ⟨m, hm.takesIn, ?_, fun next id came start machine hid hpre hwaiting =>
      hwaiting.turn_returns hne horder hid hm hpre⟩
    rw [heq]
    simp [completionsOf, List.map_drop]
  · exact parallel_congr_flags policy input _ flags waitForAll outcome
      (List.ne_nil_of_length_pos (hlen ▸ hpos))
  · exact start.size_carryOut_parallel id policy input children next
  · obtain ⟨m, t, -, hm, heq⟩ :=
      Process.exists_inPlace_parallel policy input children .done world
    refine ⟨m, hm.takesIn, ?_⟩
    rw [heq]
    refine ⟨rfl, List.append_nil _, ?_⟩
    -- the children that are left over run after what the others have left over
    simp only [InPlace.drain, InPlace.prepend, Process.inPlace, List.append_nil, List.foldl_append]
    exact List.foldl_map

/-- The first of three children to come in decides, and the node waits for the second, which is
flagged; the third is left over, and comes to its end all the same. -/
theorem parallel_returns_after_two :
    Policy.TakesIn { maxFail := .count 1 }
        (completionsOf [true, false, false] (fun _ => .failure .null) [1, 0, 2]) 2
      ∧ (parallel { maxFail := .count 1 } .null
          (completionsOf [true, false, false] (fun _ => .failure .null) [1, 0, 2])).2
        = completionsOf [true, false, false] (fun _ => .failure .null) [2]
      ∧ FairSchedule comeBack
      ∧ ∃ t o, ∀ u ≥ t, (((Machine.begin default {}).carryOut 0
          (.parallel { maxFail := .count 1 } .null
            [(true, .done default), (false, .done default), (false, .done default)]
            .done)).pursue ((List.range u).map comeBack)).outcome? 3 = some o := by
  obtain ⟨⟨m, htakes, hleft, -⟩, -, hends, -⟩ := parallel_returns_after { maxFail := .count 1 }
    .null [(true, .done default), (false, .done default), (false, .done default)]
    (fun _ => .failure .null) [1, 0, 2] (by simp) (by decide)
  have hone : 1 = [1, 0, 2].length - m := by
    rw [← List.length_drop, ← length_completionsOf, ← hleft]
    rfl
  obtain rfl : m = 2 := by
    simp only [List.length_cons, List.length_nil] at hone
    omega
  obtain ⟨-, -, hfair⟩ := hends .done 0 (Machine.begin default {}) Nat.one_pos
  refine ⟨htakes, hleft, comeBack_fair, hfair (Machine.linked_begin default {}) rfl ?_ comeBack
    comeBack_fair 2 (by decide)⟩
  simp [Process.Formed.done]

end BehaviorTree
