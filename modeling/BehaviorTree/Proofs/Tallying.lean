import BehaviorTree.Proofs.Joining
import Mathlib.Data.List.Nodup

/-!
# What a tally holds after so many completions

`Tally.after` is the tally that recorded so many of some completions, one at a time. It holds what
`Tally.After` says (`Tally.after_spec`), and every way to take in completions goes through these
tallies and no others: the loop over a list (`Tally.consume_eq`), a node on a machine
(`Machine.Waiting.joining_after`, `Join.take_eq`), and children run in place
(`Process.branchesInPlace_eq`). All of them stop at the same one. `parallel_tally` puts this
together for children that come in in any order.
-/

namespace BehaviorTree

namespace Tally

/-- The tally after so many of some completions. -/
def after (policy : Policy) (completions : List (Bool × Outcome)) (k : Nat) : Tally :=
  (completions.take k).foldl (fun tally c => tally.record policy completions.length c.1 c.2)
    { waitingOn := completions.countP (·.1) }

variable {policy : Policy} {completions : List (Bool × Outcome)} {k m : Nat} {w : Bool}
  {o : Outcome}

theorem after_succ (h : completions[k]? = some (w, o)) :
    after policy completions (k + 1)
      = (after policy completions k).record policy completions.length w o := by
  unfold after
  rw [List.take_add_one, h, Option.toList_some, List.foldl_append]
  rfl

theorem after_spec : ∀ k ≤ completions.length,
    After policy completions k (after policy completions k)
  | 0, _ => .start
  | k + 1, hk => by
    have hget : completions[k]? = some completions[k] := List.getElem?_eq_getElem hk
    rw [after_succ hget]
    exact (after_spec k (Nat.le_of_succ_le hk)).record hget

/-- What taking in one more outcome may do to a tally: a child to be waited for was still waited
for, a decision stays, and one that is made is the outcome that came in, whose threshold is
reached. -/
structure Advances (policy : Policy) (total : Nat) (w : Bool) (o : Outcome)
    (before later : Tally) : Prop where
  pending : w = true → 0 < before.waitingOn
  waitingOn : later.waitingOn + w.toNat = before.waitingOn
  kept : ∀ d, before.decision = some d → later.decision = some d
  made : ∀ d, before.decision = none → later.decision = some d → d = o
    ∧ (o.isSuccess ∧ policy.maxSuccess.reached later.succeeded total
      ∨ o.isFailure ∧ policy.maxFail.reached later.failed total)
  last : later.last = some o

theorem after_advances (h : completions[k]? = some (w, o)) :
    Advances policy completions.length w o (after policy completions k)
      (after policy completions (k + 1)) := by
  obtain ⟨hlt, hget⟩ := List.getElem?_eq_some_iff.1 h
  have hwaiting : (after policy completions k).waitingOn
      = (after policy completions (k + 1)).waitingOn + w.toNat := by
    rw [(after_spec k hlt.le).waitingOn, (after_spec (k + 1) hlt).waitingOn,
      List.drop_eq_getElem_cons hlt, hget, List.countP_cons]
    cases w <;> rfl
  refine ⟨fun hw => ?_, hwaiting.symm, fun d hd => ?_, fun d hd hd' => ?_, ?_⟩
  · rw [hwaiting, hw]
    exact Nat.succ_pos _
  · rw [after_succ h, record_of_decision hd]
    exact hd
  · rw [after_succ h, record_of_none hd] at hd' ⊢
    simp only [Option.ite_none_right_eq_some, Option.some.injEq] at hd' ⊢
    obtain ⟨hreached, rfl⟩ := hd'
    refine ⟨rfl, ?_⟩
    cases o <;> simpa [Outcome.isSuccess, Outcome.isFailure] using hreached
  · rw [after_succ h]
    cases hd : (after policy completions k).decision with
    | some d => rw [record_of_decision hd]
    | none => rw [record_of_none hd]

/-- What holds of a tally when some children have come in, in an order: the flagged children among
the others are waited for; the last outcome is known; until a decision the kinds are counted; and a
decision is the outcome of a child with which its threshold was reached. -/
structure Invariant (policy : Policy) (flags : List Bool) (outcome : Nat → Outcome)
    (came : List Nat) (tally : Tally) : Prop where
  waitingOn : tally.waitingOn
    = (List.range flags.length).countP fun i => flags.getD i false && i ∉ came
  last : tally.last = (came.map outcome).getLast?
  succeeded : tally.decision = none →
    tally.succeeded = (came.map outcome).countP Outcome.isSuccess
  failed : tally.decision = none → tally.failed = (came.map outcome).countP Outcome.isFailure
  sum : tally.decision = none → tally.succeeded + tally.failed = came.length
  decided : ∀ o, tally.decision = some o → ∃ j, (came.map outcome)[j]? = some o
    ∧ (o.isSuccess ∧ policy.maxSuccess.reached
        (((came.take (j + 1)).map outcome).countP Outcome.isSuccess) flags.length
      ∨ o.isFailure ∧ policy.maxFail.reached
        (((came.take (j + 1)).map outcome).countP Outcome.isFailure) flags.length)

/-- The children that have not come in are those that come later. -/
theorem countP_drop_eq {order : List Nat} {n : Nat} (horder : order.Perm (List.range n))
    (flag : Nat → Bool) (k : Nat) :
    (order.drop k).countP flag
      = (List.range n).countP fun i => flag i && i ∉ order.take k := by
  have hnodup : (order.take k ++ order.drop k).Nodup := by
    rw [List.take_append_drop]
    exact horder.nodup_iff.2 List.nodup_range
  have hcame : (order.take k).countP (fun i => flag i && i ∉ order.take k) = 0 :=
    List.countP_eq_zero.2 fun i hi => by simp [hi]
  rw [← horder.countP_eq]
  conv_rhs => rw [← List.take_append_drop k order]
  rw [List.countP_append, List.take_append_drop, hcame, Nat.zero_add]
  refine List.countP_congr fun i hi => ?_
  have hnot : i ∉ order.take k := fun hi' => List.disjoint_of_nodup_append hnodup hi' hi
  simp [hnot]

theorem after_invariant {flags : List Bool} {order : List Nat}
    (horder : order.Perm (List.range flags.length)) (outcome : Nat → Outcome)
    (hk : k ≤ flags.length) :
    Invariant policy flags outcome (order.take k)
      (after policy (completionsOf flags outcome order) k) := by
  have hlen : order.length = flags.length := by rw [horder.length_eq, List.length_range]
  have h : After policy (completionsOf flags outcome order) k _ :=
    after_spec k (by rwa [length_completionsOf, hlen])
  have htake : ((completionsOf flags outcome order).map Prod.snd).take k
      = (order.take k).map outcome := by
    rw [map_snd_completionsOf, List.map_take]
  have hs := h.succeeded
  have hf := h.failed
  rw [htake] at hs hf
  refine ⟨?_, htake ▸ h.last, hs, hf, fun hd => ?_, fun o hd => ?_⟩
  · rw [h.waitingOn, ← countP_drop_eq horder, completionsOf, ← List.map_drop, List.countP_map]
    rfl
  · rw [hs hd, hf hd]
    have hkinds : (fun o : Outcome => decide ¬o.isSuccess = true) = Outcome.isFailure := by
      funext o
      cases o <;> rfl
    have hsum :=
      List.length_eq_countP_add_countP Outcome.isSuccess (l := (order.take k).map outcome)
    rw [hkinds, List.length_map] at hsum
    exact hsum.symm
  · obtain ⟨j, hj, ⟨⟨o', ho', hkinds⟩, -⟩, ho⟩ := h.decided o hd
    obtain rfl := Option.some.inj (ho'.symm.trans ho)
    have htaken : (order.take k).take (j + 1) = order.take (j + 1) := by
      rw [List.take_take, Nat.min_eq_left hj]
    rw [map_snd_completionsOf] at ho hkinds
    refine ⟨j, ?_, ?_⟩
    · rw [List.map_take, List.getElem?_take_of_lt hj, ho]
    · rw [htaken, Threshold.reached_iff, Threshold.reached_iff, List.map_take]
      rwa [List.length_map, hlen] at hkinds

section Returns

variable (hm : policy.ReturnsAfter completions m)

include hm

theorem le_length_of_returns : m ≤ completions.length :=
  hm.2 (.inl le_rfl)

theorem pos_of_returns (hne : completions ≠ []) : 0 < m := by
  rw [Nat.pos_iff_ne_zero]
  rintro rfl
  rcases hm.1 with hall | hen
  · exact hne (List.length_eq_zero_iff.1 (Nat.le_zero.1 hall))
  · exact Policy.not_enough_zero hen

/-- The loop stops as soon as its tally is settled. -/
theorem eq_of_settled (hk : k ≤ m) (hs : (after policy completions k).settled policy = true) :
    k = m :=
  le_antisymm hk
    (hm.2 (.inr ((after_spec k (hk.trans (le_length_of_returns hm))).settled_iff.1 hs)))

/-- It goes on while its tally is not settled and there are more completions. -/
theorem lt_of_not_settled (hk : k ≤ m) (hlt : k < completions.length)
    (hs : (after policy completions k).settled policy ≠ true) : k < m := by
  refine lt_of_le_of_ne hk ?_
  rintro rfl
  rcases hm.1 with hall | hen
  · exact absurd hlt (not_lt.2 hall)
  · exact hs ((after_spec k hlt.le).settled_iff.2 hen)

theorem consume_eq : ∀ (rest : List (Bool × Outcome)) (k : Nat), rest = completions.drop k →
    k ≤ m → (k < m ∨ rest = []) →
    (after policy completions k).consume policy completions.length rest
      = (after policy completions m, completions.drop m)
  | [], k, hrest, hk, _ => by
    have hlen : completions.length ≤ k := List.drop_eq_nil_iff.1 hrest.symm
    obtain rfl : k = m := le_antisymm hk ((le_length_of_returns hm).trans hlen)
    rw [consume, hrest]
  | (w, o) :: rest, k, hrest, hk, hlt => by
    obtain ⟨hget, hdrop⟩ := getElem?_of_drop_eq_cons hrest.symm
    have hk' : k + 1 ≤ m := hlt.resolve_right (List.cons_ne_nil _ _)
    rw [consume, ← after_succ hget]
    by_cases hs : (after policy completions (k + 1)).settled policy = true
    · obtain rfl := eq_of_settled hm hk' hs
      simp only [hs, if_true, hdrop]
    · simp only [hs, Bool.false_eq_true, if_false]
      refine consume_eq rest (k + 1) hdrop.symm hk' ?_
      by_cases hlen : k + 1 < completions.length
      · exact .inl (lt_of_not_settled hm hk' hlen hs)
      · exact .inr (hdrop ▸ List.drop_eq_nil_of_le (not_lt.1 hlen))

end Returns

end Tally

/-- Taking in completions goes through the tallies after so many of them, up to the one with which
the node returns. -/
theorem parallel_eq {policy : Policy} {completions : List (Bool × Outcome)} {m : Nat}
    (hm : policy.ReturnsAfter completions m) (hne : completions ≠ []) (input : Value) :
    parallel policy input completions
      = ((Tally.after policy completions m).result input, completions.drop m) := by
  have h : Tally.consume policy completions.length { waitingOn := completions.countP (·.1) }
      completions = _ :=
    Tally.consume_eq hm completions 0 rfl (Nat.zero_le _) (.inl (Tally.pos_of_returns hm hne))
  simp only [parallel, h]

/-- Of the completions of a node one always comes last, so it has an outcome to return. -/
theorem Tally.exists_outcome {policy : Policy} {completions : List (Bool × Outcome)} {k : Nat}
    (hpos : 0 < k) (hk : k ≤ completions.length) :
    ∃ o, (after policy completions k).decision.or (after policy completions k).last = some o := by
  have hlast : (after policy completions k).last.isSome := by
    rw [(after_spec k hk).last, List.getLast?_isSome]
    refine List.ne_nil_of_length_pos ?_
    rw [List.length_take, List.length_map]
    omega
  obtain ⟨o, ho⟩ := Option.isSome_iff_exists.1 hlast
  cases hd : (after policy completions k).decision with
  | none => exact ⟨o, by rw [Option.none_or, ho]⟩
  | some d => exact ⟨d, by rw [Option.some_or]⟩

namespace Join

variable {completions : List (Bool × Outcome)} {m : Nat}

/-- A node that waits takes in all that arrived, or goes up to the completion with which it
returns. -/
theorem take_eq : ∀ (arrived : List (Nat × Outcome)) (join : Join),
    join.flags.length = completions.length → join.policy.ReturnsAfter completions m →
    join.tally = .after join.policy completions join.taken → join.taken < m →
    arrived.map (fun a => (join.flags.getD a.1 false, a.2)) <+: completions.drop join.taken →
    join.take arrived = if join.taken + arrived.length < m then
        ({ join with
          tally := .after join.policy completions (join.taken + arrived.length)
          taken := join.taken + arrived.length
          arrived := [] }, none)
      else
        ({ join with
          tally := .after join.policy completions m
          taken := m
          arrived := arrived.drop (m - join.taken) },
          some ((Tally.after join.policy completions m).result join.input))
  | [], join, _, _, htally, hlt, _ => by
    rw [take, List.length_nil, Nat.add_zero, if_pos hlt, ← htally]
  | (i, o) :: rest, join, hflags, hm, htally, hlt, hpre => by
    obtain ⟨more, hmore⟩ := hpre
    obtain ⟨hget, hdrop⟩ := getElem?_of_drop_eq_cons hmore.symm
    have hrest : rest.map (fun a => (join.flags.getD a.1 false, a.2))
        <+: completions.drop (join.taken + 1) := ⟨more, hdrop.symm⟩
    have hlen : ((i, o) :: rest).length = rest.length + 1 := List.length_cons
    simp only [take]
    rw [htally, hflags, ← Tally.after_succ hget]
    by_cases hs : ((Tally.after join.policy completions (join.taken + 1)).settled join.policy
        || join.taken + 1 = completions.length) = true
    · have hm' : join.taken + 1 = m := by
        rw [Bool.or_eq_true, decide_eq_true_eq] at hs
        rcases hs with hs | hs
        · exact Tally.eq_of_settled hm hlt hs
        · exact le_antisymm hlt (hs ▸ Tally.le_length_of_returns hm)
      rw [if_pos hs, if_neg (by omega), ← hm', Nat.add_sub_cancel_left, List.drop_one,
        List.tail_cons]
    · rw [if_neg hs]
      rw [Bool.or_eq_true, decide_eq_true_eq, not_or] at hs
      have hlt' : join.taken + 1 < m := by
        have hlength := (List.getElem?_eq_some_iff.1 hget).1
        exact Tally.lt_of_not_settled hm hlt (by omega) hs.1
      have ih := take_eq rest { join with
          tally := .after join.policy completions (join.taken + 1)
          taken := join.taken + 1
          arrived := rest } hflags hm rfl hlt' hrest
      have hsub : m - join.taken = (m - (join.taken + 1)) + 1 := by omega
      rw [ih, hlen, hsub, List.drop_succ_cons, Nat.add_assoc, Nat.add_comm 1]

end Join

namespace Machine

/-- While a node waits, its tally is the one after as many completions as it has taken in. -/
theorem Waiting.joining_after {id : TaskId} {outcome : Nat → Outcome} {start : Machine}
    {join : Join} {order : List Nat} {m : Nat}
    (hstart : (start.task id).state = .joining join) (harrived : join.arrived = [])
    (htaken : join.taken = 0) (hflags : join.flags.length = order.length)
    (hm : join.policy.ReturnsAfter (completionsOf join.flags outcome order) m) (hpos : 0 < m)
    (htally : join.tally = .after join.policy (completionsOf join.flags outcome order) 0)
    {came : List Nat} {machine : Machine} (h : Waiting id outcome start came machine) :
    came <+: order → ∃ k ≤ came.length, k < m
      ∧ (machine.task id).state = .joining { join with
        tally := .after join.policy (completionsOf join.flags outcome order) k
        taken := k
        arrived := arrivals outcome (came.drop k) } := by
  induction h with
  | start =>
    intro _
    refine ⟨0, le_rfl, hpos, ?_⟩
    rw [hstart, ← htally, ← htaken, List.drop_nil]
    simp [arrivals, ← harrived]
  | @arrive came machine i _ ih =>
    intro hpre
    obtain ⟨k, hk, hlt, hstate⟩ := ih ((List.prefix_append _ _).trans hpre)
    refine ⟨k, hk.trans (by simp), hlt, ?_⟩
    rw [state_arrive hstate]
    simp [arrivals, List.drop_append_of_le_length hk]
  | @turn came machine join₁ join₂ _ hjoin htake ih =>
    intro hpre
    obtain ⟨k, hk, hlt, hstate⟩ := ih hpre
    have hcame : k + (arrivals outcome (came.drop k)).length = came.length := by
      simp only [arrivals, List.length_map, List.length_drop]
      omega
    obtain rfl := TaskState.joining.inj (hjoin.symm.trans hstate)
    have heq := Join.take_eq (arrivals outcome (came.drop k))
      { join with
        tally := .after join.policy (completionsOf join.flags outcome order) k
        taken := k
        arrived := arrivals outcome (came.drop k) }
      (by rw [length_completionsOf]; exact hflags) hm rfl hlt
      (map_arrivals_drop hpre hk join.flags outcome)
    rw [turn_of_joining hjoin]
    simp only [hcame] at heq htake
    rw [htake] at heq
    split at heq
    · rename_i hbefore
      refine ⟨came.length, le_rfl, hbefore, ?_⟩
      simp only [htake]
      rw [state_setState _ (by simpa [changeTask] using lt_size_of_joining hjoin),
        (Prod.mk.inj heq).1, List.drop_length]
      rfl
    · cases (Prod.mk.inj heq).2
  | other _ hsame ih =>
    intro hpre
    rw [hsame]
    exact ih hpre

end Machine

namespace Process

/-- In place a node goes through the same tallies, of the completions of its children in turn. -/
theorem branchesInPlace_eq {policy : Policy} {all : List (Bool × Outcome)} {m : Nat}
    (hm : policy.ReturnsAfter all m) :
    ∀ (children : List (Bool × Process)) (world : World) (k : Nat),
    completions (inTurn children world) = all.drop k → k ≤ m →
    (branchesInPlace policy all.length (.after policy all k) children world).1 = .after policy all m
  | [], world, k, hall, hk => by
    have hlen : all.length ≤ k := List.drop_eq_nil_iff.1 hall.symm
    obtain rfl : k = m := le_antisymm hk ((Tally.le_length_of_returns hm).trans hlen)
    rw [branchesInPlace]
  | (w, child) :: rest, world, k, hall, hk => by
    by_cases hs : (Tally.after policy all k).settled policy = true
    · obtain rfl := Tally.eq_of_settled hm hk hs
      rw [branchesInPlace_of_settled all.length hs]
    · rw [inTurn, completions, List.map_cons] at hall
      obtain ⟨hget, hrest⟩ := getElem?_of_drop_eq_cons hall.symm
      have hlt := Tally.lt_of_not_settled hm hk (List.getElem?_eq_some_iff.1 hget).1 hs
      rw [branchesInPlace, if_neg hs]
      simp only [← Tally.after_succ hget]
      exact branchesInPlace_eq hm rest (inPlace child world).world (k + 1) hrest.symm hlt

end Process

/-- The completions of children run in place come in in the order of the children. -/
theorem Process.completions_inTurn (children : List (Bool × Process)) (world : World) :
    ∃ outcome, completions (inTurn children world)
      = completionsOf (children.map (·.1)) outcome (List.range children.length) := by
  refine ⟨fun i => ((inTurn children world).map fun run => run.2.outcome).getD i default,
    List.ext_getElem (by simp [completions, length_inTurn]) fun i hi hi' => ?_⟩
  have hlt : i < (inTurn children world).length := by simpa [completions] using hi
  have hlt' : i < children.length := by rwa [length_inTurn] at hlt
  have hflag : ((inTurn children world).map (·.1))[i]? = (children.map (·.1))[i]? := by
    rw [map_fst_inTurn]
  simp only [List.getElem?_map, List.getElem?_eq_getElem hlt, List.getElem?_eq_getElem hlt',
    Option.map_some, Option.some.injEq] at hflag
  simp [completions, completionsOf, hlt, hlt', hflag]

/-- Children run in place end with one of the tallies of the order that they are in. -/
theorem Process.exists_branchesInPlace_after (policy : Policy) (children : List (Bool × Process))
    (world : World) : ∃ outcome m,
    completions (inTurn children world)
        = completionsOf (children.map (·.1)) outcome (List.range children.length)
      ∧ policy.ReturnsAfter
        (completionsOf (children.map (·.1)) outcome (List.range children.length)) m
      ∧ (branchesInPlace policy children.length { waitingOn := children.countP (·.1) } children
          world).1
        = .after policy (completionsOf (children.map (·.1)) outcome (List.range children.length))
          m := by
  obtain ⟨outcome, hruns⟩ := completions_inTurn children world
  obtain ⟨m, -, -, -, hm⟩ := exists_parallel_eq policy default
    (completionsOf (children.map (·.1)) outcome (List.range children.length))
  refine ⟨outcome, m, hruns, hm, ?_⟩
  have hflags : (children.map (·.1)).length = children.length := List.length_map _
  have hcount : (completionsOf (children.map (·.1)) outcome
      (List.range children.length)).countP (·.1) = children.countP (·.1) := by
    rw [← hflags, countP_completionsOf (.refl _), List.countP_map]
    rfl
  have h := branchesInPlace_eq hm children world 0 hruns (Nat.zero_le _)
  rw [length_completionsOf, List.length_range, Tally.after, List.take_zero, List.foldl_nil,
    hcount] at h
  exact h

/-- A node that waits on a machine holds the tally after as many completions as it has taken in, and
its next turn takes in the others, up to the one with which it returns. -/
theorem Machine.Waiting.exists_join {policy : Policy} {input : Value}
    {children : List (Bool × Process)} {next : Outcome → Process} {outcome : Nat → Outcome}
    {order came : List Nat} {id : TaskId} {start machine : Machine} {m : Nat}
    (hne : children ≠ []) (horder : order.Perm (List.range children.length))
    (hm : policy.ReturnsAfter (completionsOf (children.map (·.1)) outcome order) m)
    (hid : id < start.tasks.size) (hpre : came <+: order)
    (h : (start.carryOut id (.parallel policy input children next)).Waiting id outcome came
      machine) :
    ∃ join, (machine.task id).state = .joining join ∧ join.taken ≤ came.length
      ∧ join.tally
        = .after policy (completionsOf (children.map (·.1)) outcome order) join.taken
      ∧ (join.take join.arrived).1.tally
        = .after policy (completionsOf (children.map (·.1)) outcome order) (min came.length m)
      ∧ (join.take join.arrived).2 = if m ≤ came.length then
          some ((Tally.after policy (completionsOf (children.map (·.1)) outcome order) m).result
            input)
        else none := by
  have hflags : (children.map (·.1)).length = children.length := List.length_map _
  have hlen : order.length = children.length := by rw [horder.length_eq, List.length_range]
  have hcompletions : (completionsOf (children.map (·.1)) outcome order).length
      = children.length := by rw [length_completionsOf, hlen]
  have hpos : 0 < m := Tally.pos_of_returns hm <| List.ne_nil_of_length_pos <| by
    rw [hcompletions]
    exact List.length_pos_iff.2 hne
  have hcount : (children.map (·.1)).countP (·)
      = (completionsOf (children.map (·.1)) outcome order).countP (·.1) :=
    (countP_completionsOf (by rwa [hflags]) outcome).symm
  have hstart := state_carryOut_parallel start hid policy input children next
  generalize List.range' start.tasks.size children.length = branches at hstart
  generalize children.map (·.1) = flags at hm hstart hcount hflags hcompletions ⊢
  obtain ⟨k, hk, hlt, hstate⟩ := h.joining_after hstart rfl rfl (hflags.trans hlen.symm) hm hpos
    (congrArg (fun n => ({ waitingOn := n } : Tally)) hcount) hpre
  have htake := Join.take_eq (arrivals outcome (came.drop k))
    { Join.start policy input flags branches next with
      tally := .after policy (completionsOf flags outcome order) k
      taken := k
      arrived := arrivals outcome (came.drop k) } (hflags.trans hcompletions.symm) hm rfl hlt
    (map_arrivals_drop hpre hk _ outcome)
  have hcame : k + (arrivals outcome (came.drop k)).length = came.length := by
    simp only [arrivals, List.length_map, List.length_drop]
    omega
  refine ⟨_, hstate, hk, rfl, ?_⟩
  simp only [hcame] at htake
  simp only [Join.start] at htake ⊢
  rw [htake]
  by_cases hall : came.length < m
  · rw [if_pos hall, if_neg (not_le.2 hall), min_eq_left hall.le]
    exact ⟨rfl, rfl⟩
  · rw [if_neg hall, if_pos (not_lt.1 hall), min_eq_right (not_lt.1 hall)]
    exact ⟨rfl, rfl⟩

/-- The loop of a parallel node with children, for any policy, outcomes and order in which they come
in. The tally keeps its invariant, and every completion advances it by one outcome. The loop ends at
the first completion after which it may, and then there is an outcome to return: the input is never
the result. A node on a machine holds one of these tallies whenever it waits, and its next turn
takes it to the one after all that came in, or to the last one; and in place it ends with the last
one for the order of the children. -/
theorem parallel_tally (policy : Policy) (children : List (Bool × Process))
    (outcome : Nat → Outcome) (order : List Nat) (hne : children ≠ [])
    (horder : order.Perm (List.range children.length)) :
    let flags := children.map (·.1)
    let completions := completionsOf flags outcome order
    let tally := Tally.after policy completions
    (∀ k ≤ children.length, (tally k).Invariant policy flags outcome (order.take k))
      ∧ (∀ k i, order[k]? = some i →
        tally (k + 1) = (tally k).record policy children.length (flags.getD i false) (outcome i)
          ∧ Tally.Advances policy children.length (flags.getD i false) (outcome i) (tally k)
            (tally (k + 1)))
      ∧ (∃ m o, 0 < m ∧ policy.ReturnsAfter completions m
        ∧ (tally m).decision.or (tally m).last = some o
        ∧ (∀ input, parallel policy input completions = (o, completions.drop m))
        ∧ ∀ (input : Value) (next : Outcome → Process) (id : TaskId) (came : List Nat)
          (start machine : Machine), id < start.tasks.size → came <+: order →
          (start.carryOut id (.parallel policy input children next)).Waiting id outcome came
            machine →
          ∃ join, (machine.task id).state = .joining join
            ∧ join.taken ≤ came.length ∧ join.tally = tally join.taken
            ∧ (join.take join.arrived).1.tally = tally (min came.length m)
            ∧ (join.take join.arrived).2 = if m ≤ came.length then some o else none)
      ∧ ∀ world : World, ∃ outcome' m,
        Process.completions (Process.inTurn children world)
            = completionsOf flags outcome' (List.range children.length)
          ∧ policy.ReturnsAfter (completionsOf flags outcome' (List.range children.length)) m
          ∧ (Process.branchesInPlace policy children.length
              { waitingOn := children.countP (·.1) } children world).1
            = .after policy (completionsOf flags outcome' (List.range children.length)) m := by
  intro flags completions tally
  have hflags : flags.length = children.length := List.length_map _
  have hlen : order.length = children.length := by rw [horder.length_eq, List.length_range]
  have hcompletions : completions.length = children.length := by rw [length_completionsOf, hlen]
  have hpos := List.length_pos_iff.2 hne
  have hne' : completions ≠ [] := List.ne_nil_of_length_pos (hcompletions ▸ hpos)
  have hpermuted : order.Perm (List.range flags.length) := hflags ▸ horder
  refine ⟨fun k hk => Tally.after_invariant hpermuted outcome (hflags ▸ hk), fun k i hi => ?_,
    ?_, Process.exists_branchesInPlace_after policy children⟩
  · have hget : completions[k]? = some (flags.getD i false, outcome i) := by
      rw [show completions[k]? = _ from List.getElem?_map .., hi]
      rfl
    rw [← hcompletions]
    exact ⟨Tally.after_succ hget, Tally.after_advances hget⟩
  · obtain ⟨m, -, -, -, hm⟩ := exists_parallel_eq policy default completions
    have hm₀ := Tally.pos_of_returns hm hne'
    obtain ⟨o, ho⟩ : ∃ o, (tally m).decision.or (tally m).last = some o :=
      Tally.exists_outcome hm₀ (Tally.le_length_of_returns hm)
    have hresult : ∀ input, (tally m).result input = o := fun input => by
      rw [Tally.result, ho, Option.getD_some]
    refine ⟨m, o, hm₀, hm, ho, fun input => ?_,
      fun input next id came start machine hid hpre hwaiting => ?_⟩
    · rw [parallel_eq hm hne', hresult]
    · rw [← hresult input]
      exact hwaiting.exists_join hne horder hm hid hpre

/-- The last of three children comes in first and fails; the second, which is waited for, comes in
before the first and decides. -/
theorem parallel_tally_of_three :
    let children : List (Bool × Process) :=
      [(false, .done default), (true, .done default), (false, .done default)]
    let outcome : Nat → Outcome := fun i =>
      if i = 2 then .failure .null else .success (.bool (i = 0))
    let completions := completionsOf (children.map (·.1)) outcome [2, 1, 0]
    (Tally.after { maxSuccess := .count 1 } completions 1).Invariant { maxSuccess := .count 1 }
        [false, true, false] outcome [2]
      ∧ Tally.Advances { maxSuccess := .count 1 } 3 true (outcome 1)
        (Tally.after { maxSuccess := .count 1 } completions 1)
        (Tally.after { maxSuccess := .count 1 } completions 2)
      ∧ ∀ input, (parallel { maxSuccess := .count 1 } input completions).1
        = .success (.bool false) := by
  intro children outcome completions
  obtain ⟨hinvariant, hadvances, ⟨m, o, -, -, -, hresult, -⟩, -⟩ :=
    parallel_tally { maxSuccess := .count 1 } children outcome [2, 1, 0] (by simp) (by decide)
  refine ⟨hinvariant 1 (by decide), (hadvances 1 1 rfl).2, fun input => ?_⟩
  have hnull : o = .success (.bool false) := by
    rw [← show (parallel { maxSuccess := .count 1 } .null completions).1 = o from
      congrArg Prod.fst (hresult .null)]
    rfl
  rw [hresult input, hnull]

end BehaviorTree
