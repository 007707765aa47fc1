import BehaviorTree.Proofs.Joining
import Mathlib.Data.List.Induction

/-!
# What the thresholds of a parallel node change

An outcome decides when as many of its own kind have come in as its threshold needs
(`Policy.decides_iff`), so a lower threshold for one kind only adds outcomes of that kind to those
that decide (`Policy.Decides.lower`). The node then returns no later
(`Policy.ReturnsAfter.lower_le`), and an outcome of that kind stays one (`Policy.Gives.lower`). A
threshold that takes all children can at most let the last of them decide, which gives the result
in any case (`Policy.Gives.of_all`). Two thresholds that leave no room between them are reached by
one kind of outcome or the other (`Policy.exists_decides_of_counts`), and if they do not overlap
either, the numbers of outcomes say by which (`Policy.Decides.isSuccess_iff`).
-/

namespace BehaviorTree

namespace Threshold

/-- A threshold needs no more outcomes than another. That puts `count 1` before `count 2` and so
on, with `never` last and `all` in the place of the number of children. -/
def AtMost (total : Nat) (low high : Threshold) : Prop :=
  ∀ n ∈ high.needed? total, ∃ n' ∈ low.needed? total, n' ≤ n

end Threshold

namespace Policy

/-- How many outcomes of a kind are enough, if any number is. -/
def needed? (policy : Policy) (total : Nat) (success : Bool) : Option Nat :=
  if success then policy.maxSuccess.needed? total else policy.maxFail.needed? total

/-- A policy with another threshold for outcomes of a kind. -/
def withThreshold (policy : Policy) (success : Bool) (threshold : Threshold) : Policy :=
  if success then { policy with maxSuccess := threshold }
  else { policy with maxFail := threshold }

/-- An outcome decides if enough of its own kind have come in with it. -/
theorem decides_iff {policy : Policy} {os : List Outcome} {k : Nat} :
    policy.Decides os k ↔ ∃ o, os[k]? = some o ∧
      ∃ n ∈ policy.needed? os.length o.isSuccess,
        n ≤ (os.take (k + 1)).countP fun other => other.isSuccess == o.isSuccess := by
  have hfailure : Outcome.isFailure = fun other => !other.isSuccess := rfl
  refine exists_congr fun o => and_congr_right fun _ => ?_
  cases ho : o.isSuccess <;> simp [hfailure, needed?, ho]

theorem needed?_withThreshold_self (policy : Policy) (success : Bool) (threshold : Threshold)
    (total : Nat) :
    (policy.withThreshold success threshold).needed? total success = threshold.needed? total := by
  cases success <;> rfl

theorem needed?_withThreshold_of_ne (policy : Policy) {success kind : Bool} (h : kind ≠ success)
    (threshold : Threshold) (total : Nat) :
    (policy.withThreshold success threshold).needed? total kind = policy.needed? total kind := by
  cases success <;> cases kind <;> first | rfl | exact absurd rfl h

@[simp] theorem waitForAll_withThreshold (policy : Policy) (success : Bool)
    (threshold : Threshold) :
    (policy.withThreshold success threshold).waitForAll = policy.waitForAll := by
  cases success <;> rfl

section Lower

variable {policy : Policy} {success : Bool} {low high : Threshold}

/-- The threshold for one kind of outcome does not matter to the other kind. -/
theorem decides_withThreshold_of_ne {os : List Outcome} {k : Nat} {o : Outcome}
    (ho : os[k]? = some o) (hne : o.isSuccess ≠ success) :
    (policy.withThreshold success low).Decides os k
      ↔ (policy.withThreshold success high).Decides os k := by
  rw [decides_iff, decides_iff]
  simp only [ho, Option.some.injEq, exists_eq_left', needed?_withThreshold_of_ne policy hne]

/-- What decides under a threshold decides under a lower one. -/
theorem Decides.lower {os : List Outcome} {k : Nat} (hle : low.AtMost os.length high)
    (h : (policy.withThreshold success high).Decides os k) :
    (policy.withThreshold success low).Decides os k := by
  obtain ⟨o, ho, n, hn, hcount⟩ := decides_iff.1 h
  by_cases hkind : o.isSuccess = success
  · subst hkind
    rw [needed?_withThreshold_self] at hn
    obtain ⟨n', hn', hle'⟩ := hle n hn
    refine decides_iff.2 ⟨o, ho, n', ?_, hle'.trans hcount⟩
    rwa [needed?_withThreshold_self]
  · exact (decides_withThreshold_of_ne ho hkind).2 h

theorem Enough.lower {completions : List (Bool × Outcome)} {m : Nat}
    (hle : low.AtMost completions.length high)
    (h : (policy.withThreshold success high).Enough completions m) :
    (policy.withThreshold success low).Enough completions m := by
  obtain ⟨hwait, ⟨k, hk, hdecides⟩, hflags⟩ := h
  rw [waitForAll_withThreshold] at hwait
  exact ⟨by rwa [waitForAll_withThreshold],
    ⟨k, hk, hdecides.lower (by rwa [List.length_map])⟩, hflags⟩

/-- With a lower threshold a node returns no later. -/
theorem ReturnsAfter.lower_le {completions : List (Bool × Outcome)} {m m' : Nat}
    (hle : low.AtMost completions.length high)
    (hm : (policy.withThreshold success high).ReturnsAfter completions m)
    (hm' : (policy.withThreshold success low).ReturnsAfter completions m') : m' ≤ m :=
  hm'.2 (hm.1.imp_right (Enough.lower hle))

/-- An outcome of the kind whose threshold is lowered stays one of this kind. -/
theorem Gives.lower {os : List Outcome} {o o' : Outcome} (hle : low.AtMost os.length high)
    (h : (policy.withThreshold success high).Gives os o)
    (h' : (policy.withThreshold success low).Gives os o') (ho : o.isSuccess = success) :
    o'.isSuccess = success := by
  by_contra hne
  have heq : o' = o := by
    rcases h' with ⟨k', hk', ho'⟩ | ⟨hnone', hlast'⟩
    · -- an outcome of the other kind decides with the higher threshold too, and it is the first
      have hk : (policy.withThreshold success high).Decides os k' :=
        (decides_withThreshold_of_ne ho' hne).1 hk'.1
      exact Gives.unique (.inl ⟨k', ⟨hk, fun j hj => hk'.2 (Decides.lower hle hj)⟩, ho'⟩) h
    · exact Gives.unique (.inr ⟨fun k hk => hnone' k (Decides.lower hle hk), hlast'⟩) h
  exact hne (heq ▸ ho)

end Lower

section All

variable {policy : Policy} {success : Bool} {threshold : Threshold}

/-- What decides only because all outcomes are of one kind is the last of them. -/
theorem Decides.last_of_all {os : List Outcome} {k : Nat}
    (h : (policy.withThreshold success .all).Decides os k)
    (hnot : ¬(policy.withThreshold success threshold).Decides os k) : k + 1 = os.length := by
  have hlt := h.lt_length
  obtain ⟨o, ho, n, hn, hcount⟩ := decides_iff.1 h
  by_cases hkind : o.isSuccess = success
  · subst hkind
    rw [needed?_withThreshold_self] at hn
    obtain rfl : os.length = n := Option.some.inj hn
    have htake : os.length ≤ (os.take (k + 1)).length := hcount.trans List.countP_le_length
    rw [List.length_take] at htake
    omega
  · exact absurd ((decides_withThreshold_of_ne ho hkind).1 h) hnot

variable {completions : List (Bool × Outcome)}

/-- A threshold that takes all children, or more, makes no difference to the result. -/
theorem Gives.of_all {os : List Outcome} {o : Outcome}
    (hle : Threshold.all.AtMost os.length threshold)
    (h : (policy.withThreshold success .all).Gives os o) :
    (policy.withThreshold success threshold).Gives os o := by
  rcases h with ⟨k, hk, ho⟩ | ⟨hnone, hlast⟩
  · have hfirst : ∀ j, (policy.withThreshold success threshold).Decides os j → k ≤ j :=
      fun j hj => hk.2 (Decides.lower hle hj)
    by_cases hdecides : (policy.withThreshold success threshold).Decides os k
    · exact .inl ⟨k, ⟨hdecides, hfirst⟩, ho⟩
    · have hlen := hk.1.last_of_all hdecides
      refine .inr ⟨fun j hj => ?_, ?_⟩
      · have hj' := hj.lt_length
        obtain rfl : k = j := le_antisymm (hfirst j hj) (by omega)
        exact hdecides hj
      · rw [List.getLast?_eq_getElem?, ← hlen]
        exact ho
  · exact .inr ⟨fun k hk => hnone k (Decides.lower hle hk), hlast⟩

theorem ReturnsAfter.of_all {m : Nat}
    (hle : Threshold.all.AtMost completions.length threshold)
    (h : (policy.withThreshold success .all).ReturnsAfter completions m) :
    (policy.withThreshold success threshold).ReturnsAfter completions m := by
  refine ⟨?_, fun j hj => h.2 (hj.imp_right (Enough.lower hle))⟩
  rcases h.1 with hall | ⟨hwait, ⟨k, hk, hdecides⟩, hflags⟩
  · exact .inl hall
  · by_cases hdecides' :
        (policy.withThreshold success threshold).Decides (completions.map Prod.snd) k
    · rw [waitForAll_withThreshold] at hwait
      exact .inr ⟨by rwa [waitForAll_withThreshold], ⟨k, hk, hdecides'⟩, hflags⟩
    · have hlen := hdecides.last_of_all hdecides'
      rw [List.length_map] at hlen
      exact .inl (by omega)

end All

section Counts

variable {policy : Policy} {s f : Nat} {os : List Outcome}

/-- Among outcomes of which enough are of a kind there is one with which enough have come in. -/
theorem exists_of_le_countP {p : Outcome → Bool} {n : Nat} (hn : 1 ≤ n) :
    ∀ {os : List Outcome}, n ≤ os.countP p →
      ∃ k o, os[k]? = some o ∧ p o ∧ n ≤ (os.take (k + 1)).countP p := by
  intro os
  induction os using List.reverseRecOn with
  | nil =>
    intro h
    rw [List.countP_nil] at h
    omega
  | append_singleton os last ih =>
    intro h
    by_cases hbefore : n ≤ os.countP p
    · obtain ⟨k, o, ho, hp, hcount⟩ := ih hbefore
      have hlt := (List.getElem?_eq_some_iff.1 ho).1
      refine ⟨k, o, by rwa [List.getElem?_append_left hlt], hp, ?_⟩
      rwa [List.take_append_of_le_length hlt]
    · refine ⟨os.length, last, List.getElem?_concat_length, ?_, ?_⟩
      · rw [List.countP_append, List.countP_singleton] at h
        by_contra hp
        rw [if_neg hp] at h
        exact hbefore h
      · rwa [List.take_of_length_le (by simp)]

theorem countP_add_countP_isFailure (os : List Outcome) :
    os.countP Outcome.isSuccess + os.countP Outcome.isFailure = os.length := by
  have hfailure : Outcome.isFailure = fun o => !o.isSuccess := rfl
  have h := List.length_eq_countP_add_countP (l := os) Outcome.isSuccess
  simpa [hfailure] using h.symm

/-- If there are too few outcomes to fall short of both thresholds, one of them decides. -/
theorem exists_decides_of_counts (hs : 1 ≤ s) (hf : 1 ≤ f) (hsum : s + f ≤ os.length + 1)
    (hpolicy : policy.maxSuccess = .count s ∧ policy.maxFail = .count f) :
    ∃ k, policy.Decides os k := by
  have htotal := countP_add_countP_isFailure os
  rcases (by omega : s ≤ os.countP Outcome.isSuccess ∨ f ≤ os.countP Outcome.isFailure) with
    hreached | hreached
  · obtain ⟨k, o, ho, hsuccess, hcount⟩ := exists_of_le_countP hs hreached
    exact ⟨k, o, ho, .inl ⟨hsuccess, s, by rw [hpolicy.1]; rfl, hcount⟩⟩
  · obtain ⟨k, o, ho, hfailure, hcount⟩ := exists_of_le_countP hf hreached
    exact ⟨k, o, ho, .inr ⟨hfailure, f, by rw [hpolicy.2]; rfl, hcount⟩⟩

/-- If the outcomes are too many for both thresholds to be reached, what decides is a success
exactly when there are enough of them. -/
theorem Decides.isSuccess_iff {k : Nat} {o : Outcome} (h : policy.Decides os k)
    (ho : os[k]? = some o) (hsum : os.length < s + f)
    (hpolicy : policy.maxSuccess = .count s ∧ policy.maxFail = .count f) :
    o.isSuccess ↔ s ≤ os.countP Outcome.isSuccess := by
  have htotal := countP_add_countP_isFailure os
  obtain ⟨o', ho', hcase⟩ := h
  obtain rfl : o = o' := Option.some.inj (ho.symm.trans ho')
  rcases hcase with ⟨hsuccess, n, hn, hcount⟩ | ⟨hfailure, n, hn, hcount⟩
  · rw [hpolicy.1] at hn
    obtain rfl : s = n := Option.some.inj hn
    exact iff_of_true hsuccess (hcount.trans ((List.take_sublist _ _).countP_le))
  · rw [hpolicy.2] at hn
    obtain rfl : f = n := Option.some.inj hn
    have hreached := hcount.trans ((List.take_sublist _ _).countP_le)
    refine iff_of_false ?_ (by omega)
    simpa [Outcome.isFailure] using hfailure

end Counts

end Policy

/-- How the outcomes of some children come in: from tasks side by side, in an order, or in place,
where one child runs after the other. -/
inductive Gathering where
  | sideBySide (outcome : Nat → Outcome) (order : List Nat)
  | inPlace (world : World)

namespace Gathering

variable (children : List (Bool × Process))

/-- Every child comes in once. -/
def Full : Gathering → Prop
  | sideBySide _ order => order.Perm (List.range children.length)
  | inPlace _ => True

/-- The outcomes of the children from the first to the last, in whatever order they come in. -/
def outcomes : Gathering → List Outcome
  | sideBySide outcome _ => (List.range children.length).map outcome
  | inPlace world => (Process.inTurn children world).map fun run => run.2.outcome

/-- What comes in, in its order. -/
def completions : Gathering → List (Bool × Outcome)
  | sideBySide outcome order => completionsOf (children.map (·.1)) outcome order
  | inPlace world => Process.completions (Process.inTurn children world)

/-- A node takes in so many of its children and goes on with an outcome: on a machine it waits while
fewer have come in and returns in its next turn when as many have, whatever else happens; in place
it runs as many children and leaves the others over. -/
def Carries (policy : Policy) (input : Value) (m : Nat) (o : Outcome) : Gathering → Prop
  | sideBySide outcome order => ∀ (next : Outcome → Process) (id : TaskId) (came : List Nat)
      (start machine : Machine), id < start.tasks.size → came <+: order →
      (start.carryOut id (.parallel policy input children next)).Waiting id outcome came machine →
      (came.length < m → ∃ join, ((machine.turn id).task id).state = .joining join)
        ∧ (m ≤ came.length → machine.Returns id m next o)
  | inPlace world => ∀ next : Outcome → Process,
      Process.inPlace (.parallel policy input children next) world
        = (Process.inPlace (next o)
            (Process.worldAfter world ((Process.inTurn children world).take m))).prepend
          (((Process.inTurn children world).take m).flatMap (·.2.leftovers)
            ++ (children.drop m).map Process.leftover)

variable {children} {gathering : Gathering}

theorem perm_outcomes (h : gathering.Full children) :
    ((gathering.completions children).map Prod.snd).Perm (gathering.outcomes children) := by
  cases gathering with
  | sideBySide outcome order =>
    rw [completions, map_snd_completionsOf]
    exact h.map outcome
  | inPlace world =>
    rw [completions, Process.map_snd_completions]
    exact .refl _

theorem length_completions (h : gathering.Full children) :
    (gathering.completions children).length = children.length := by
  have hlen := (perm_outcomes h).length_eq
  rw [List.length_map] at hlen
  rw [hlen]
  cases gathering <;> simp [outcomes, Process.length_inTurn]

end Gathering

/-- A parallel node takes in so many completions and gives an outcome: so `parallel` has it, and
whoever carries the node out. -/
structure Policy.Answers (policy : Policy) (input : Value) (children : List (Bool × Process))
    (gathering : Gathering) (m : Nat) (o : Outcome) : Prop where
  le : m ≤ children.length
  parallel_eq : parallel policy input (gathering.completions children)
    = (o, (gathering.completions children).drop m)
  carries : gathering.Carries children policy input m o

/-- A node answers, and its answer is what its policy makes of the outcomes that come in. -/
theorem Policy.exists_answers (policy : Policy) (input : Value) {children : List (Bool × Process)}
    (hne : children ≠ []) {gathering : Gathering} (hfull : gathering.Full children) :
    ∃ m o, policy.Answers input children gathering m o
      ∧ policy.ReturnsAfter (gathering.completions children) m
      ∧ policy.Gives ((gathering.completions children).map Prod.snd) o := by
  have hlen := Gathering.length_completions hfull
  have hcompletions : gathering.completions children ≠ [] :=
    List.ne_nil_of_length_pos (hlen ▸ List.length_pos_iff.2 hne)
  obtain ⟨m, t, heq, hafter, hm⟩ :=
    exists_parallel_eq policy input (gathering.completions children)
  have hgives := hafter.result_of_returns hm hcompletions input
  refine ⟨m, t.result input, ⟨hlen ▸ hm.2 (.inl le_rfl), heq, ?_⟩, hm, hgives⟩
  cases gathering with
  | sideBySide outcome order =>
    intro next id came start machine hid hpre hwaiting
    obtain ⟨hwaits, hreturns⟩ := hwaiting.turn_returns hne hfull hid hm hpre
    have hresult : (parallel policy input (completionsOf (children.map (·.1)) outcome order)).1
        = t.result input := congrArg Prod.fst heq
    rw [hresult] at hreturns
    exact ⟨hwaits, fun hle => (hreturns hle).returns⟩
  | inPlace world =>
    intro next
    obtain ⟨m', t', hafter', hm', hinPlace⟩ :=
      Process.exists_inPlace_parallel policy input children next world
    obtain rfl := hm.unique hm'
    rw [hinPlace, (hafter'.result_of_returns hm hcompletions input).unique hgives]

/-- With thresholds `s` and `f` that leave no room between them one of them is reached, in whatever
order the children come in, so that the last child is never the result for want of a decision. If
they do not overlap either, the order does not matter to the verdict, which is a success exactly
when at least `s` of the children succeed. -/
theorem quorum_decides (s f : Nat) (waitForAll : Bool) (input : Value)
    (children : List (Bool × Process)) (hs : 1 ≤ s) (hf : 1 ≤ f)
    (hsum : s + f ≤ children.length + 1) (gathering : Gathering)
    (hfull : gathering.Full children) :
    let policy : Policy := { maxSuccess := .count s, maxFail := .count f, waitForAll }
    let came := (gathering.completions children).map Prod.snd
    ∃ m o, policy.Answers input children gathering m o
      ∧ (∃ k, policy.FirstDecides came k ∧ came[k]? = some o)
      ∧ (s + f = children.length + 1 →
        (o.isSuccess ↔ s ≤ (gathering.outcomes children).countP Outcome.isSuccess)) := by
  intro policy came
  have hne : children ≠ [] := List.ne_nil_of_length_pos (by omega)
  have hlen : came.length = children.length := by
    rw [List.length_map, Gathering.length_completions hfull]
  obtain ⟨m, o, hanswers, -, hgives⟩ := policy.exists_answers input hne hfull
  obtain ⟨j, hj⟩ : ∃ j, policy.Decides came j :=
    Policy.exists_decides_of_counts hs hf (hlen ▸ hsum) ⟨rfl, rfl⟩
  rcases hgives with ⟨k, hk, ho⟩ | ⟨hnone, -⟩
  · refine ⟨m, o, hanswers, ⟨k, hk, ho⟩, fun heq => ?_⟩
    have hlt : came.length < s + f := by omega
    rw [← (Gathering.perm_outcomes hfull).countP_eq]
    exact hk.1.isSuccess_iff ho hlt ⟨rfl, rfl⟩
  · exact absurd hj (hnone j)

/-- One failure among three children does not keep them from a quorum of two, though it comes
first. -/
theorem quorum_decides_of_three :
    Gathering.Full [(true, Process.done default), (false, .done default), (false, .done default)]
        (.sideBySide (fun i => if i = 1 then .failure .null else .success .null) [1, 2, 0])
      ∧ (parallel { maxSuccess := .count 2, maxFail := .count 2 } .null
        (completionsOf [true, false, false]
          (fun i => if i = 1 then .failure .null else .success .null) [1, 2, 0])).1.isSuccess := by
  have hfull : [1, 2, 0].Perm (List.range 3) := by decide
  obtain ⟨m, o, hanswers, -, hverdict⟩ := quorum_decides 2 2 false .null
    [(true, .done default), (false, .done default), (false, .done default)]
    (by decide) (by decide) (by decide)
    (.sideBySide (fun i => if i = 1 then .failure .null else .success .null) [1, 2, 0]) hfull
  have heq := congrArg (fun answer => answer.1.isSuccess) hanswers.parallel_eq
  exact ⟨hfull, heq.trans ((hverdict rfl).2 (by decide))⟩

/-- A threshold that takes all children is the same as none, and the same as one that takes as many
or more: whatever the other threshold and the flags are, the node takes in as many completions and
gives the same outcome. That holds for the threshold for successes (`success`) and for the one for
failures. -/
theorem all_same_as_never (policy : Policy) (input : Value) (children : List (Bool × Process))
    (success : Bool) (threshold : Threshold) (hne : children ≠ [])
    (hthreshold : threshold = .never ∨ ∃ n, children.length ≤ n ∧ threshold = .count n)
    (gathering : Gathering) (hfull : gathering.Full children) :
    ∃ m o, (policy.withThreshold success .all).Answers input children gathering m o
      ∧ (policy.withThreshold success threshold).Answers input children gathering m o := by
  have hle : Threshold.all.AtMost (gathering.completions children).length threshold := by
    rw [Gathering.length_completions hfull]
    rcases hthreshold with rfl | ⟨n, hn, rfl⟩
    · simp [Threshold.AtMost, Threshold.needed?]
    · simpa [Threshold.AtMost, Threshold.needed?] using hn
  obtain ⟨m, o, hanswers, hm, hgives⟩ :=
    (policy.withThreshold success .all).exists_answers input hne hfull
  obtain ⟨m', o', hanswers', hm', hgives'⟩ :=
    (policy.withThreshold success threshold).exists_answers input hne hfull
  obtain rfl : m = m' := (hm.of_all hle).unique hm'
  obtain rfl : o = o' := (hgives.of_all (by rwa [List.length_map])).unique hgives'
  exact ⟨m, o, hanswers, hanswers'⟩

/-- Two successes of two children have no other result than if nothing could decide. -/
theorem all_same_as_never_of_two :
    [(true, Process.done default), (false, .done default)] ≠ []
      ∧ parallel { maxSuccess := .all, maxFail := .count 1 } .null
          (completionsOf [true, false] (fun i => .success (.bool (i = 0))) [1, 0])
        = parallel { maxSuccess := .never, maxFail := .count 1 } .null
          (completionsOf [true, false] (fun i => .success (.bool (i = 0))) [1, 0]) := by
  have hfull : [1, 0].Perm (List.range 2) := by decide
  obtain ⟨m, o, hall, hnever⟩ := all_same_as_never { maxFail := .count 1 } .null
    [(true, .done default), (false, .done default)] true .never (by simp) (.inl rfl)
    (.sideBySide (fun i => .success (.bool (i = 0))) [1, 0]) hfull
  exact ⟨by simp, hall.parallel_eq.trans hnever.parallel_eq.symm⟩

/-- If the threshold for successes (`success`) is lowered, a success stays a success, and if the one
for failures is, a failure stays a failure. Either way the node takes in no more completions. -/
theorem lower_threshold_keeps (policy : Policy) (input : Value) (children : List (Bool × Process))
    (success : Bool) (low high : Threshold) (hne : children ≠ [])
    (hle : low.AtMost children.length high) (gathering : Gathering)
    (hfull : gathering.Full children) :
    ∃ m o m' o', (policy.withThreshold success high).Answers input children gathering m o
      ∧ (policy.withThreshold success low).Answers input children gathering m' o'
      ∧ m' ≤ m ∧ (o.isSuccess = success → o'.isSuccess = success) := by
  rw [← Gathering.length_completions hfull] at hle
  obtain ⟨m, o, hanswers, hm, hgives⟩ :=
    (policy.withThreshold success high).exists_answers input hne hfull
  obtain ⟨m', o', hanswers', hm', hgives'⟩ :=
    (policy.withThreshold success low).exists_answers input hne hfull
  exact ⟨m, o, m', o', hanswers, hanswers', Policy.ReturnsAfter.lower_le hle hm hm',
    hgives.lower (by rwa [List.length_map]) hgives'⟩

/-- With a lower threshold the second child decides, where the third had been the last. -/
theorem lower_threshold_keeps_of_three :
    Threshold.AtMost 3 (.count 1) .all
      ∧ (parallel { maxSuccess := .all } .null (completionsOf [false, false, false]
          (fun i => if i = 0 then .failure .null else .success .null) [0, 1, 2])).1.isSuccess
      ∧ (parallel { maxSuccess := .count 1 } .null (completionsOf [false, false, false]
          (fun i => if i = 0 then .failure .null else .success .null) [0, 1, 2])).1.isSuccess := by
  have hle : Threshold.AtMost 3 (.count 1) .all := by simp [Threshold.AtMost, Threshold.needed?]
  have hfull : [0, 1, 2].Perm (List.range 3) := by decide
  obtain ⟨m, o, m', o', hhigh, hlow, -, hkeeps⟩ := lower_threshold_keeps {} .null
    [(false, .done default), (false, .done default), (false, .done default)] true (.count 1) .all
    (by simp) hle
    (.sideBySide (fun i => if i = 0 then .failure .null else .success .null) [0, 1, 2]) hfull
  have hhigh' := congrArg (fun answer => answer.1.isSuccess) hhigh.parallel_eq
  have hlow' := congrArg (fun answer => answer.1.isSuccess) hlow.parallel_eq
  exact ⟨hle, rfl, hlow'.trans (hkeeps hhigh'.symm)⟩

end BehaviorTree
