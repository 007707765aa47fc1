import BehaviorTree.Tally
import Mathlib.Order.Bounds.Basic

/-!
# What decides a parallel node

A completion decides when, with it, as many successes or as many failures have come in as the
policy needs (`Policy.Decides`). After any number of completions a tally remembers the first of
them that decided, and what came in last (`Tally.After.record`), so a node returns the outcome of
the first completion that decides, or of the last one when none does (`After.result_of_returns`).
It returns once enough have come in (`Policy.Enough`), or all, and not before
(`exists_parallel_eq`).
-/

namespace BehaviorTree

theorem getElem?_of_drop_eq_cons {α : Type} {l rest : List α} {k : Nat} {a : α}
    (h : l.drop k = a :: rest) : l[k]? = some a ∧ l.drop (k + 1) = rest := by
  refine ⟨?_, ?_⟩
  · rw [← List.head?_drop, h, List.head?_cons]
  · rw [← List.tail_drop, h, List.tail_cons]

namespace Threshold

/-- How many outcomes of one kind are enough, if any number is. -/
def needed? (total : Nat) : Threshold → Option Nat
  | never => none
  | all => some total
  | count n => some n

theorem reached_iff {threshold : Threshold} {reported total : Nat} :
    threshold.reached reported total = true ↔ ∃ n ∈ threshold.needed? total, n ≤ reported := by
  cases threshold <;> simp [reached, needed?]

end Threshold

namespace Policy

variable (policy : Policy)

/-- With the outcome at an index, as many of its kind have come in as the policy needs. -/
def Decides (outcomes : List Outcome) (k : Nat) : Prop :=
  ∃ o, outcomes[k]? = some o ∧
    (o.isSuccess ∧ (∃ n ∈ policy.maxSuccess.needed? outcomes.length,
        n ≤ (outcomes.take (k + 1)).countP Outcome.isSuccess)
      ∨ o.isFailure ∧ ∃ n ∈ policy.maxFail.needed? outcomes.length,
        n ≤ (outcomes.take (k + 1)).countP Outcome.isFailure)

/-- The first outcome that decides is at an index. -/
def FirstDecides (outcomes : List Outcome) (k : Nat) : Prop :=
  IsLeast {k | policy.Decides outcomes k} k

/-- What comes of some outcomes: the first that decides, or else the last. -/
def Gives (outcomes : List Outcome) (o : Outcome) : Prop :=
  (∃ k, policy.FirstDecides outcomes k ∧ outcomes[k]? = some o)
    ∨ (∀ k, ¬policy.Decides outcomes k) ∧ outcomes.getLast? = some o

/-- One of the first completions decides, the node does not wait for all, and none of those to be
waited for is missing. -/
def Enough (completions : List (Bool × Outcome)) (m : Nat) : Prop :=
  policy.waitForAll = false ∧ (∃ k < m, policy.Decides (completions.map Prod.snd) k)
    ∧ ∀ c ∈ completions.drop m, c.1 = false

/-- How many completions a node takes in: all of them if it waits for all or if none decides, and
otherwise the fewest among which are the one that decides and those to be waited for. -/
def TakesIn (completions : List (Bool × Outcome)) (m : Nat) : Prop :=
  (policy.waitForAll = true ∨ (∀ k, ¬policy.Decides (completions.map Prod.snd) k) →
      m = completions.length)
    ∧ ∀ k, policy.waitForAll = false → policy.FirstDecides (completions.map Prod.snd) k →
      IsLeast {m | k < m ∧ ∀ c ∈ completions.drop m, c.1 = false} m

/-- A node returns after so many completions: all of them, or the first that are enough. -/
def ReturnsAfter (completions : List (Bool × Outcome)) (m : Nat) : Prop :=
  IsLeast {m | completions.length ≤ m ∨ policy.Enough completions m} m

variable {policy}

theorem Decides.lt_length {outcomes : List Outcome} {k : Nat} (h : policy.Decides outcomes k) :
    k < outcomes.length := by
  obtain ⟨o, ho, -⟩ := h
  exact (List.getElem?_eq_some_iff.1 ho).1

theorem getElem?_of_take_eq {os os' : List Outcome} {k : Nat}
    (htake : os'.take (k + 1) = os.take (k + 1)) : os'[k]? = os[k]? := by
  rw [← List.getElem?_take_of_lt (Nat.lt_succ_self k), htake,
    List.getElem?_take_of_lt (Nat.lt_succ_self k)]

/-- Whether a completion decides is settled when it has come in. -/
theorem decides_congr {os os' : List Outcome} {k : Nat} (hlen : os'.length = os.length)
    (htake : os'.take (k + 1) = os.take (k + 1)) :
    policy.Decides os' k ↔ policy.Decides os k := by
  unfold Decides
  rw [getElem?_of_take_eq htake, hlen, htake]

theorem firstDecides_congr {os os' : List Outcome} {k : Nat} (hlen : os'.length = os.length)
    (htake : os'.take (k + 1) = os.take (k + 1)) (h : policy.FirstDecides os k) :
    policy.FirstDecides os' k := by
  refine ⟨(decides_congr hlen htake).2 h.1, fun j hj => ?_⟩
  by_contra hjk
  have hjk' : j + 1 ≤ k + 1 := by omega
  have htake' : os'.take (j + 1) = os.take (j + 1) := by
    rw [← Nat.min_eq_left hjk', ← List.take_take, htake, List.take_take]
  exact hjk (h.2 ((decides_congr hlen htake').1 hj))

theorem Gives.unique {outcomes : List Outcome} {o o' : Outcome} (h : policy.Gives outcomes o)
    (h' : policy.Gives outcomes o') : o = o' := by
  rcases h with ⟨k, hk, ho⟩ | ⟨hnone, ho⟩
  · rcases h' with ⟨k', hk', ho'⟩ | ⟨hnone', -⟩
    · rw [hk.unique hk', ho'] at ho
      exact (Option.some.inj ho).symm
    · exact absurd hk.1 (hnone' k)
  · rcases h' with ⟨k', hk', -⟩ | ⟨-, ho'⟩
    · exact absurd hk'.1 (hnone k')
    · exact Option.some.inj (ho.symm.trans ho')

theorem Gives.congr_late {os os' : List Outcome} {k : Nat} {o : Outcome}
    (hk : policy.FirstDecides os k) (hlen : os'.length = os.length)
    (htake : os'.take (k + 1) = os.take (k + 1)) (h : policy.Gives os o) :
    policy.Gives os' o := by
  obtain ⟨o', ho', -⟩ := hk.1
  obtain rfl : o = o' := h.unique (.inl ⟨k, hk, ho'⟩)
  exact .inl ⟨k, firstDecides_congr hlen htake hk, (getElem?_of_take_eq htake).trans ho'⟩

theorem not_enough_zero {completions : List (Bool × Outcome)} :
    ¬policy.Enough completions 0 := by
  rintro ⟨-, ⟨k, hk, -⟩, -⟩
  omega

/-- The first point at which completions are enough is one at which none before it are. -/
theorem returnsAfter_of_before {completions : List (Bool × Outcome)} {m : Nat}
    (h : completions.length ≤ m ∨ policy.Enough completions m)
    (hbefore : ∀ j < m, j < completions.length ∧ ¬policy.Enough completions j) :
    policy.ReturnsAfter completions m := by
  refine ⟨h, fun j hj => ?_⟩
  by_contra hlt
  obtain ⟨hlen, hnot⟩ := hbefore j (by omega)
  rcases hj with hj | hj
  · omega
  · exact hnot hj

theorem not_enough_succ {completions : List (Bool × Outcome)} {k : Nat}
    (hbefore : ∀ j ≤ k, ¬policy.Enough completions j)
    (h : ¬policy.Enough completions (k + 1)) : ∀ j ≤ k + 1, ¬policy.Enough completions j := by
  intro j hj
  rcases Nat.le_succ_iff.1 hj with hj | rfl
  · exact hbefore j hj
  · exact h

/-- A node returns when it has taken in what it needs, and not before. -/
theorem ReturnsAfter.takesIn {completions : List (Bool × Outcome)} {m : Nat}
    (hm : policy.ReturnsAfter completions m) : policy.TakesIn completions m := by
  refine ⟨fun h => le_antisymm (hm.2 (.inl le_rfl)) ?_, fun k hw hk => ⟨?_, ?_⟩⟩
  · rcases hm.1 with hall | ⟨hw, ⟨k, -, hk⟩, -⟩
    · exact hall
    · rcases h with h | h
      · rw [h] at hw
        cases hw
      · exact absurd hk (h k)
  · have hlt : k < completions.length := by simpa using hk.1.lt_length
    rcases hm.1 with hall | ⟨-, ⟨j, hj, hjd⟩, hflags⟩
    · have hall' : completions.length ≤ m := hall
      exact ⟨by omega, by simp [List.drop_eq_nil_of_le hall']⟩
    · exact ⟨lt_of_le_of_lt (hk.2 hjd) hj, hflags⟩
  · exact fun j ⟨hj, hflags⟩ => hm.2 (.inr ⟨hw, ⟨k, hj, hk.1⟩, hflags⟩)

end Policy

namespace Tally

/-- What a tally holds after so many of some completions: those to be waited for are counted
down, the first that decided is kept, and until then the kinds are counted. -/
structure After (policy : Policy) (completions : List (Bool × Outcome)) (k : Nat)
    (tally : Tally) : Prop where
  waitingOn : tally.waitingOn = (completions.drop k).countP (·.1)
  last : tally.last = ((completions.map Prod.snd).take k).getLast?
  succeeded : tally.decision = none →
    tally.succeeded = ((completions.map Prod.snd).take k).countP Outcome.isSuccess
  failed : tally.decision = none →
    tally.failed = ((completions.map Prod.snd).take k).countP Outcome.isFailure
  undecided : tally.decision = none → ∀ j < k, ¬policy.Decides (completions.map Prod.snd) j
  decided : ∀ o ∈ tally.decision, ∃ j < k, policy.FirstDecides (completions.map Prod.snd) j
    ∧ (completions.map Prod.snd)[j]? = some o

variable {policy : Policy} {completions : List (Bool × Outcome)}

theorem After.start : After policy completions 0 { waitingOn := completions.countP (·.1) } := by
  constructor <;> simp

theorem countP_take_succ (p : Outcome → Bool) {os : List Outcome} {k : Nat} {o : Outcome}
    (h : os[k]? = some o) :
    (os.take (k + 1)).countP p = (os.take k).countP p + if p o then 1 else 0 := by
  rw [List.take_add_one, h, Option.toList_some, List.countP_append, List.countP_singleton]

theorem record_of_decision {tally : Tally} {d : Outcome} (hd : tally.decision = some d)
    (total : Nat) (w : Bool) (o : Outcome) :
    tally.record policy total w o = { tally with
      waitingOn := if w then tally.waitingOn - 1 else tally.waitingOn
      last := some o } := by
  unfold record
  simp only [hd]

theorem record_of_none {tally : Tally} (hd : tally.decision = none) (total : Nat) (w : Bool)
    (o : Outcome) :
    tally.record policy total w o =
      { waitingOn := if w then tally.waitingOn - 1 else tally.waitingOn
        succeeded := tally.succeeded + if o.isSuccess then 1 else 0
        failed := tally.failed + if o.isFailure then 1 else 0
        decision := if o.isSuccess && policy.maxSuccess.reached (tally.succeeded + 1) total
            || o.isFailure && policy.maxFail.reached (tally.failed + 1) total then some o else none
        last := some o } := by
  unfold record
  cases o <;> simp [hd, Outcome.isSuccess, Outcome.isFailure]

/-- A decision is made exactly when the outcome that comes in decides. -/
theorem After.decision_record {k : Nat} {tally : Tally} (h : After policy completions k tally)
    {w : Bool} {o : Outcome} (hk : completions[k]? = some (w, o)) (hd : tally.decision = none) :
    (tally.record policy completions.length w o).decision = some o
        ∧ policy.FirstDecides (completions.map Prod.snd) k
      ∨ (tally.record policy completions.length w o).decision = none
        ∧ ¬policy.Decides (completions.map Prod.snd) k := by
  have ho : (completions.map Prod.snd)[k]? = some o := by simp [hk]
  have hlen : (completions.map Prod.snd).length = completions.length := by simp
  have hs := countP_take_succ Outcome.isSuccess ho
  have hf := countP_take_succ Outcome.isFailure ho
  rw [← h.succeeded hd] at hs
  rw [← h.failed hd] at hf
  have hdec : policy.Decides (completions.map Prod.snd) k ↔
      (o.isSuccess && policy.maxSuccess.reached (tally.succeeded + 1) completions.length
        || o.isFailure && policy.maxFail.reached (tally.failed + 1) completions.length) = true := by
    rw [Bool.or_eq_true, Bool.and_eq_true, Bool.and_eq_true, Threshold.reached_iff,
      Threshold.reached_iff]
    unfold Policy.Decides
    rw [hs, hf, hlen, ho]
    cases o <;> simp [Outcome.isSuccess, Outcome.isFailure]
  rw [record_of_none hd]
  by_cases hk : policy.Decides (completions.map Prod.snd) k
  · refine .inl ⟨if_pos (hdec.1 hk), hk, fun j hj => ?_⟩
    by_contra hlt
    exact h.undecided hd j (by omega) hj
  · exact .inr ⟨if_neg fun hr => hk (hdec.2 hr), hk⟩

theorem After.record {k : Nat} {tally : Tally} (h : After policy completions k tally)
    {w : Bool} {o : Outcome} (hk : completions[k]? = some (w, o)) :
    After policy completions (k + 1) (tally.record policy completions.length w o) := by
  obtain ⟨hlt, hget⟩ := List.getElem?_eq_some_iff.1 hk
  have ho : (completions.map Prod.snd)[k]? = some o := by simp [hk]
  have hwait : (if w then tally.waitingOn - 1 else tally.waitingOn)
      = (completions.drop (k + 1)).countP (·.1) := by
    rw [h.waitingOn, List.drop_eq_getElem_cons hlt, hget, List.countP_cons]
    cases w <;> simp
  have hlast : some o = ((completions.map Prod.snd).take (k + 1)).getLast? := by
    rw [List.take_add_one, ho]
    simp
  -- before a decision the outcome is counted and may decide, after it nothing more is counted
  rcases hd : tally.decision with _ | d
  · have hdec := h.decision_record hk hd
    rw [record_of_none hd] at hdec ⊢
    refine ⟨hwait, hlast, fun _ => ?_, fun _ => ?_, fun hn j hj => ?_, fun d hd' => ?_⟩
    · rw [countP_take_succ _ ho, h.succeeded hd]
    · rw [countP_take_succ _ ho, h.failed hd]
    · rcases hdec with ⟨hs, -⟩ | ⟨-, hnot⟩
      · rw [hs] at hn
        cases hn
      · rcases Nat.lt_succ_iff_lt_or_eq.1 hj with hj | rfl
        · exact h.undecided hd j hj
        · exact hnot
    · rcases hdec with ⟨hs, hfirst⟩ | ⟨hn, -⟩
      · exact ⟨k, by omega, hfirst, ho.trans (hs.symm.trans hd')⟩
      · cases hn.symm.trans hd'
  · rw [record_of_decision hd]
    have hsome : ({ tally with
        waitingOn := if w then tally.waitingOn - 1 else tally.waitingOn
        last := some o } : Tally).decision ≠ none := by simp [hd]
    refine ⟨hwait, hlast, fun hn => absurd hn hsome, fun hn => absurd hn hsome,
      fun hn => absurd hn hsome, fun d' hd' => ?_⟩
    obtain ⟨j, hj, hfirst, hjo⟩ := h.decided d' hd'
    exact ⟨j, by omega, hfirst, hjo⟩

/-- The tally need not wait exactly when enough completions have come in. -/
theorem After.settled_iff {k : Nat} {tally : Tally} (h : After policy completions k tally) :
    tally.settled policy = true ↔ policy.Enough completions k := by
  have hdec : tally.decision.isSome = true ↔
      ∃ j < k, policy.Decides (completions.map Prod.snd) j := by
    rcases hd : tally.decision with _ | d
    · simpa using h.undecided hd
    · obtain ⟨j, hj, hfirst, -⟩ := h.decided d hd
      simpa using ⟨j, hj, hfirst.1⟩
  have hwait : tally.waitingOn = 0 ↔ ∀ c ∈ completions.drop k, c.1 = false := by
    rw [h.waitingOn, List.countP_eq_zero]
    simp
  unfold settled Policy.Enough
  rw [Bool.and_eq_true, Bool.and_eq_true, decide_eq_true_eq, hdec, hwait, Bool.not_eq_true']
  tauto

theorem After.result_of_returns {m : Nat} {tally : Tally} (h : After policy completions m tally)
    (hm : policy.ReturnsAfter completions m) (hne : completions ≠ []) (input : Value) :
    policy.Gives (completions.map Prod.snd) (tally.result input) := by
  have hlt : ∀ k, policy.Decides (completions.map Prod.snd) k → ∃ j < m,
      policy.Decides (completions.map Prod.snd) j := by
    intro k hk
    rcases hm.1 with hall | ⟨-, hex, -⟩
    · exact ⟨k, by simpa using hk.lt_length.trans_le (by simpa using hall), hk⟩
    · exact hex
  unfold result
  rcases hd : tally.decision with _ | d
  · have hnone : ∀ k, ¬policy.Decides (completions.map Prod.snd) k := by
      intro k hk
      obtain ⟨j, hj, hjd⟩ := hlt k hk
      exact h.undecided hd j hj hjd
    have hall : completions.length ≤ m := by
      rcases hm.1 with hall | ⟨-, ⟨k, -, hk⟩, -⟩
      · exact hall
      · exact absurd hk (hnone k)
    refine .inr ⟨hnone, ?_⟩
    rw [h.last, List.take_of_length_le (by simpa using hall)]
    have hlast := List.getLast?_eq_some_getLast (l := completions.map Prod.snd) (by simpa using hne)
    rw [hlast]
    rfl
  · obtain ⟨j, -, hfirst, hj⟩ := h.decided d hd
    exact .inl ⟨j, hfirst, hj⟩

/-- Taking in completions goes on to the first point at which they are enough, or to the end. -/
theorem exists_consume_eq : ∀ (rest : List (Bool × Outcome)) (k : Nat) (tally : Tally),
    rest = completions.drop k → After policy completions k tally →
    (∀ j ≤ k, ¬policy.Enough completions j) → k ≤ completions.length →
    ∃ m t, tally.consume policy completions.length rest = (t, completions.drop m)
      ∧ After policy completions m t ∧ policy.ReturnsAfter completions m
  | [], k, tally, hrest, h, hbefore, hk => by
    have hlen : completions.length ≤ k := List.drop_eq_nil_iff.1 hrest.symm
    exact ⟨k, tally, by rw [consume, ← hrest], h, Policy.returnsAfter_of_before (.inl hlen)
      fun j hj => ⟨by omega, hbefore j (by omega)⟩⟩
  | (w, o) :: rest, k, tally, hrest, h, hbefore, hk => by
    obtain ⟨hget, hrest⟩ := getElem?_of_drop_eq_cons hrest.symm
    have h' := h.record hget
    have hlt : k < completions.length := (List.getElem?_eq_some_iff.1 hget).1
    rw [consume]
    by_cases hs : (tally.record policy completions.length w o).settled policy = true
    · exact ⟨k + 1, _, by rw [if_pos hs, hrest], h', Policy.returnsAfter_of_before
        (.inr (h'.settled_iff.1 hs)) fun j hj => ⟨by omega, hbefore j (by omega)⟩⟩
    · rw [if_neg hs]
      exact exists_consume_eq rest (k + 1) _ hrest.symm h'
        (Policy.not_enough_succ hbefore fun hen => hs (h'.settled_iff.2 hen)) (by omega)

end Tally

theorem exists_parallel_eq (policy : Policy) (input : Value)
    (completions : List (Bool × Outcome)) :
    ∃ m t, parallel policy input completions = (Tally.result t input, completions.drop m)
      ∧ t.After policy completions m ∧ policy.ReturnsAfter completions m := by
  have hstart : Tally.After policy completions 0 { waitingOn := completions.countP (·.1) } :=
    .start
  obtain ⟨m, t, heq, hafter, hm⟩ := Tally.exists_consume_eq completions 0 _ rfl hstart
    (fun j hj => by
      obtain rfl : j = 0 := by omega
      exact Policy.not_enough_zero) (Nat.zero_le _)
  exact ⟨m, t, by simp [parallel, heq], hafter, hm⟩

/-- A node gives the outcome of the first completion that decides, or else of the last. -/
theorem parallel_gives {policy : Policy} (input : Value) {completions : List (Bool × Outcome)}
    (hne : completions ≠ []) :
    policy.Gives (completions.map Prod.snd) (parallel policy input completions).1 := by
  obtain ⟨m, t, heq, hafter, hm⟩ := exists_parallel_eq policy input completions
  rw [heq]
  exact hafter.result_of_returns hm hne input

/-- What comes in after the completion that decides changes nothing. -/
theorem parallel_congr_late {policy : Policy} (input : Value)
    {completions late : List (Bool × Outcome)} {k : Nat}
    (hk : policy.FirstDecides (completions.map Prod.snd) k)
    (hlate : k + 1 + late.length = completions.length) :
    (parallel policy input (completions.take (k + 1) ++ late)).1
      = (parallel policy input completions).1 := by
  have hlt := hk.1.lt_length
  rw [List.length_map] at hlt
  have hlen : (completions.take (k + 1)).length = k + 1 := by
    rw [List.length_take]
    omega
  have hne : completions ≠ [] := List.ne_nil_of_length_pos (by omega)
  have hne' : completions.take (k + 1) ++ late ≠ [] :=
    List.ne_nil_of_length_pos (by rw [List.length_append]; omega)
  refine (parallel_gives input hne').unique ((parallel_gives input hne).congr_late hk ?_ ?_)
  · simp only [List.length_map, List.length_append, hlen]
    exact hlate
  · rw [List.map_append, List.map_take, List.take_left' (by simpa using hlen)]

end BehaviorTree
