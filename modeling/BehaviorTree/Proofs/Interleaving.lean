import BehaviorTree.Proofs.Courses
import BehaviorTree.Proofs.Schedules

/-!
# Tasks side by side that only read

What a move does to the tasks is said once (`Core.Goes`). As long as nothing changes the variables,
every run is on its course (`Core.Sound`): what it has put out and what it is going to put out are
together what it puts out alone, and so is the outcome, even where it waits for work in the
background, since nobody else hears of that work (`Core.Sound.goes`).
-/

namespace BehaviorTree

/-- What counts of the tasks of a machine: their states, and who learns how they end. -/
abbrev Core := TaskId → TaskState × Listener

def TaskState.isEnded : TaskState → Bool
  | ended _ => true
  | _ => false

/-- What a task has left to do, unless it waits. -/
inductive TaskState.Has : TaskState → Process → Prop
  | ready (process : Process) : Has (ready process) process
  | asleep (next : Unit → Process) : Has (asleep next) (next ())
  | ended (outcome : Outcome) : Has (ended outcome) (.done outcome)

namespace TaskState.Has

theorem unique {state : TaskState} {process other : Process} (h : state.Has process)
    (h' : state.Has other) : process = other := by
  cases h <;> cases h' <;> rfl

theorem ne_awaiting {state : TaskState} {process : Process} (h : state.Has process)
    (next : Option Outcome → Process) : state ≠ .awaiting next := by
  cases h <;> nofun

theorem ne_draining {state : TaskState} {process : Process} (h : state.Has process) :
    state ≠ .draining := by
  cases h <;> nofun

/-- A task that has something left to do has not ended, unless that is to end. -/
theorem live_or_ended {state : TaskState} {process : Process} (h : state.Has process) :
    state.isEnded = false ∨ ∃ outcome, state = .ended outcome ∧ process = .done outcome := by
  cases h with
  | ready | asleep => exact .inl rfl
  | ended outcome => exact .inr ⟨outcome, rfl, rfl⟩

end TaskState.Has

namespace Core

/-- A task with a state and a listener. -/
def put (c : Core) (id : TaskId) (state : TaskState) (listener : Listener) : Core :=
  Function.update c id (state, listener)

/-- Another state of a task. -/
def becomes (c : Core) (id : TaskId) (state : TaskState) : Core :=
  c.put id state (c id).2

/-- What came of a completion handle is handed to the task that waits for it. -/
def deliver (c : Core) (waiter : TaskId) (used : Option Outcome) : Core :=
  match (c waiter).1 with
  | .awaiting next => c.becomes waiter (.ready (next used))
  | _ => c

/-- A task uses up its completion handle. -/
def complete (c : Core) (id : TaskId) (used : Option Outcome) : Core :=
  match (c id).2 with
  | .handle waiter => (c.put id (c id).1 .nobody).deliver waiter used
  | _ => c

/-- A task ends, which drops a completion handle that it still has. -/
def finish (c : Core) (id : TaskId) (outcome : Outcome) : Core :=
  match (c id).2 with
  | .handle waiter => (c.becomes id (.ended outcome)).deliver waiter none
  | _ => c.becomes id (.ended outcome)

/-- What a move can do to so many tasks, what is put out, and the number of tasks then. -/
inductive Goes (store : Store) (size : Nat) (c : Core) :
    Move → List (TaskId × Event) → Nat → Core → Prop
  | wait {id : TaskId} (h : ∀ process, (c id).1 ≠ .ready process) :
    Goes store size c (.step id) [] size c
  | done {id : TaskId} {outcome : Outcome} (h : (c id).1 = .ready (.done outcome)) :
    Goes store size c (.step id) [] size (c.finish id outcome)
  | ask {id : TaskId} {scope : Scope} {request : Request Unit} {next : Option Value → Process}
    (h : (c id).1 = .ready (.ask scope request next)) :
    Goes store size c (.step id) [] size (c.becomes id (.ready (next (store.ask scope request).1)))
  | emit {id : TaskId} {event : Event} {next : Unit → Process}
    (h : (c id).1 = .ready (.emit event next)) :
    Goes store size c (.step id) [(id, event)] size (c.becomes id (.ready (next ())))
  | sleep {id : TaskId} {ms : Nat} {next : Unit → Process}
    (h : (c id).1 = .ready (.sleep ms next)) :
    Goes store size c (.step id) [] size (c.becomes id (.asleep next))
  | start {id : TaskId} {work : Process} {next : Unit → Process}
    (h : (c id).1 = .ready (.start work next)) :
    Goes store size c (.step id) [] (size + 1)
      ((c.put size (.ready work) .nobody).becomes id (.ready (next ())))
  | await {id : TaskId} {work : Process} {next : Option Outcome → Process}
    (h : (c id).1 = .ready (.await work next)) :
    Goes store size c (.step id) [] (size + 1)
      ((c.put size (.ready work) (.handle id)).becomes id (.awaiting next))
  | complete {id : TaskId} {used : Option Outcome} {next : Unit → Process}
    (h : (c id).1 = .ready (.complete used next)) :
    Goes store size c (.step id) [] size ((c.complete id used).becomes id (.ready (next ())))
  | rouse {id : TaskId} {next : Unit → Process} (h : (c id).1 = .asleep next) :
    Goes store size c (.rouse id) [] size (c.becomes id (.ready (next ())))
  | stay {id : TaskId} (h : ∀ next, (c id).1 ≠ .asleep next) :
    Goes store size c (.rouse id) [] size c
  | prefer {id : TaskId} {k : Nat} : Goes store size c (.prefer id k) [] size c

end Core

namespace Core

/-- A task that has not ended holds the completion handle that another waits for. -/
def Holds (c : Core) (waiter holder : TaskId) : Prop :=
  (c holder).2 = .handle waiter ∧ (c holder).1.isEnded = false

/-- What a run has left to do. Where it waits, that depends on what the work has left. -/
inductive Left (c : Core) (id : TaskId) : Process → Prop
  | has {process : Process} (h : (c id).1.Has process) : Left c id process
  | awaits {holder : TaskId} {work : Process} {next : Option Outcome → Process}
    (h : (c id).1 = .awaiting next) (hholds : c.Holds id holder) (hwork : (c holder).1.Has work) :
    Left c id (.await work next)

/-- Every run is on its course: it only reads, and what it has put out is followed by what it is
going to put out. All other tasks do work in the background, and if it is waited for then by one
run, which hears of no other. -/
structure Sound (store : Store) (runs : List Process) (size : Nat) (said : List (TaskId × Event))
    (c : Core) : Prop where
  length : runs.length ≤ size
  fresh : ∀ id, size ≤ id → c id = (.draining, .nobody)
  run : ∀ i process, runs[i]? = some process → (c i).2 = .nobody ∧
    ∃ rest, c.Left i rest ∧ rest.Reader
      ∧ (process.course store).1
        = (said.filter (·.1 = i)).map (·.2) ++ (rest.course store).1
      ∧ (process.course store).2 = (rest.course store).2
  aside : ∀ id, runs.length ≤ id → id < size → ∃ work, (c id).1.Has work ∧ work.Aside
  listener : ∀ id, (c id).2 = .nobody ∨ ∃ waiter, (c id).2 = .handle waiter
  held : ∀ waiter holder, c.Holds waiter holder → ∃ next, (c waiter).1 = .awaiting next
  unique : ∀ waiter holder other, c.Holds waiter holder → c.Holds waiter other → holder = other
  quiet : ∀ id event, (id, event) ∈ said → runs.length ≤ id → event.ofAction

end Core

namespace Core

variable {c : Core}

@[simp] theorem put_self (c : Core) (id : TaskId) (state : TaskState) (listener : Listener) :
    c.put id state listener id = (state, listener) :=
  Function.update_self ..

theorem put_of_ne (c : Core) {id t : TaskId} (h : t ≠ id) (state : TaskState)
    (listener : Listener) : c.put id state listener t = c t :=
  Function.update_of_ne h ..

namespace Sound

variable {store : Store} {runs : List Process} {size : Nat} {said : List (TaskId × Event)}

theorem lt_size (h : Sound store runs size said c) {id : TaskId} (hid : (c id).1 ≠ .draining) :
    id < size := by
  by_contra hlt
  exact hid (by rw [h.fresh id (Nat.le_of_not_lt hlt)])

theorem own_append_of_ne {i id : TaskId} (hne : i ≠ id) (said : List (TaskId × Event))
    (event? : Option Event) :
    ((said ++ event?.toList.map fun event => (id, event)).filter (·.1 = i)).map (·.2)
      = (said.filter (·.1 = i)).map (·.2) := by
  rw [List.filter_append, List.map_append]
  cases event? <;> simp [Ne.symm hne]

theorem own_append_self (id : TaskId) (said : List (TaskId × Event)) (event? : Option Event) :
    ((said ++ event?.toList.map fun event => (id, event)).filter (·.1 = id)).map (·.2)
      = (said.filter (·.1 = id)).map (·.2) ++ event?.toList := by
  rw [List.filter_append, List.map_append]
  cases event? <;> simp

/-- A task does something of its own. If another waits for it, that makes no difference to it. -/
theorem becomes (h : Sound store runs size said c) {id : TaskId} {state : TaskState}
    {before after : Process} (event? : Option Event) (hbefore : (c id).1.Has before)
    (hlive : (c id).1.isEnded = false) (hafter : state.Has after)
    (hreader : before.Reader → after.Reader) (haside : before.Aside → after.Aside)
    (hcourse : (before.course store).1 = event?.toList ++ (after.course store).1
      ∧ (before.course store).2 = (after.course store).2)
    (hheld : ∀ waiter, c.Holds waiter id →
      state.isEnded = false ∧ before.used store = after.used store)
    (hquiet : before.Aside → ∀ event ∈ event?, event.ofAction) :
    Sound store runs size (said ++ event?.toList.map fun event => (id, event))
      (c.becomes id state) := by
  have hself : c.becomes id state id = (state, (c id).2) := c.put_self id state _
  have hother : ∀ {t}, t ≠ id → c.becomes id state t = c t := fun ht => c.put_of_ne ht state _
  have hlistener : ∀ t, (c.becomes id state t).2 = (c t).2 := fun t => by
    by_cases ht : t = id
    · rw [ht, hself]
    · rw [hother ht]
  have holds_of : ∀ {waiter holder}, (c.becomes id state).Holds waiter holder →
      c.Holds waiter holder := fun {waiter holder} hholds => by
    refine ⟨hlistener holder ▸ hholds.1, ?_⟩
    by_cases hid : holder = id
    · rw [hid]
      exact hlive
    · exact hother hid ▸ hholds.2
  have holds_to : ∀ {waiter holder}, c.Holds waiter holder →
      (c.becomes id state).Holds waiter holder := fun {waiter holder} hholds => by
    refine ⟨(hlistener holder).trans hholds.1, ?_⟩
    by_cases hid : holder = id
    · subst hid
      rw [hself]
      exact (hheld waiter hholds).1
    · rw [hother hid]
      exact hholds.2
  have hlt : id < size := h.lt_size hbefore.ne_draining
  refine ⟨h.length, fun t ht => ?_, fun i process hi => ?_, fun t hle ht => ?_, fun t => ?_,
    fun waiter holder hholds => ?_, fun waiter holder other hholds hholds' =>
      h.unique waiter holder other (holds_of hholds) (holds_of hholds'), ?_⟩
  · rw [hother (Nat.ne_of_gt (Nat.lt_of_lt_of_le hlt ht)), h.fresh t ht]
  · obtain ⟨hnobody, rest, hleft, hrest, hevents, houtcome⟩ := h.run i process hi
    refine ⟨(hlistener i).trans hnobody, ?_⟩
    by_cases hid : i = id
    · subst hid
      cases hleft with
      | has hhas =>
        obtain rfl := hbefore.unique hhas
        refine ⟨after, .has (hself ▸ hafter), hreader hrest, ?_, houtcome.trans hcourse.2⟩
        rw [own_append_self, List.append_assoc, ← hcourse.1, hevents]
      | awaits hawaiting => exact absurd hawaiting (hbefore.ne_awaiting _)
    · rw [own_append_of_ne hid]
      cases hleft with
      | has hhas => exact ⟨rest, .has (hother hid ▸ hhas), hrest, hevents, houtcome⟩
      | @awaits holder work next hawaiting hholds hwork =>
        have hawaiting' : (c.becomes id state i).1 = .awaiting next := hother hid ▸ hawaiting
        by_cases hhold : holder = id
        · subst hhold
          obtain rfl := hbefore.unique hwork
          obtain ⟨-, hused⟩ := hheld i hholds
          cases hrest with
          | await hwork' hnext =>
            refine ⟨.await after next, .awaits hawaiting' (holds_to hholds) (hself ▸ hafter),
              .await (haside hwork') hnext, ?_, ?_⟩
            · rw [hevents, Process.course, Process.course, hused]
            · rw [houtcome, Process.course, Process.course, hused]
        · exact ⟨_, .awaits hawaiting' (holds_to hholds) (hother hhold ▸ hwork), hrest, hevents,
            houtcome⟩
  · by_cases hid : t = id
    · subst hid
      obtain ⟨work, hwork, hworkAside⟩ := h.aside t hle ht
      obtain rfl := hbefore.unique hwork
      exact ⟨after, hself ▸ hafter, haside hworkAside⟩
    · rw [hother hid]
      exact h.aside t hle ht
  · rw [hlistener]
    exact h.listener t
  · obtain ⟨next, hawaiting⟩ := h.held waiter holder (holds_of hholds)
    have hid : waiter ≠ id := fun heq => hbefore.ne_awaiting next (heq ▸ hawaiting)
    exact ⟨next, hother hid ▸ hawaiting⟩
  · intro t event hmem hle
    rcases List.mem_append.1 hmem with hmem | hmem
    · exact h.quiet t event hmem hle
    · obtain ⟨e, he, heq⟩ := List.mem_map.1 hmem
      cases heq
      obtain ⟨work, hwork, hworkAside⟩ := h.aside id hle hlt
      obtain rfl := hbefore.unique hwork
      exact hquiet hworkAside event (Option.mem_toList.1 he)

theorem ne_size (h : Sound store runs size said c) {id : TaskId} (hid : (c id).1 ≠ .draining) :
    id ≠ size :=
  Nat.ne_of_lt (h.lt_size hid)

/-- A task that is not waited for can be put anywhere. -/
theorem not_holds_of_nobody {id waiter : TaskId} (h : (c id).2 = .nobody) : ¬c.Holds waiter id :=
  fun hholds => nomatch h.symm.trans hholds.1

/-- Work in the background is started, and nobody waits for it. -/
theorem spawn (h : Sound store runs size said c) {work : Process} (hwork : work.Aside) :
    Sound store runs (size + 1) said (c.put size (.ready work) .nobody) := by
  have hself : c.put size (.ready work) .nobody size = (.ready work, .nobody) := c.put_self ..
  have hother : ∀ {t}, t ≠ size → c.put size (.ready work) .nobody t = c t :=
    fun ht => c.put_of_ne ht ..
  have holds_of : ∀ {waiter holder}, (c.put size (.ready work) .nobody).Holds waiter holder →
      holder ≠ size ∧ c.Holds waiter holder := fun {waiter holder} hholds => by
    have hne : holder ≠ size := fun heq =>
      not_holds_of_nobody (by rw [heq, hself]) hholds
    exact ⟨hne, hother hne ▸ hholds.1, hother hne ▸ hholds.2⟩
  have hne_of_has : ∀ {t process}, (c t).1.Has process → t ≠ size := fun hhas =>
    h.ne_size hhas.ne_draining
  refine ⟨Nat.le_succ_of_le h.length, fun t ht => ?_, fun i process hi => ?_, fun t hle ht => ?_,
    fun t => ?_, fun waiter holder hholds => ?_, fun waiter holder other hholds hholds' =>
      h.unique waiter holder other (holds_of hholds).2 (holds_of hholds').2, h.quiet⟩
  · rw [hother (Nat.ne_of_gt ht), h.fresh t (Nat.le_of_succ_le ht)]
  · have hlt : i < size := Nat.lt_of_lt_of_le (List.getElem?_eq_some_iff.1 hi).1 h.length
    have hsame := hother hlt.ne
    obtain ⟨hnobody, rest, hleft, hrest⟩ := h.run i process hi
    refine ⟨hsame ▸ hnobody, rest, ?_, hrest⟩
    cases hleft with
    | has hhas => exact .has (hsame ▸ hhas)
    | awaits hawaiting hholds hwork' =>
      have hsame' := hother (hne_of_has hwork')
      exact .awaits (hsame ▸ hawaiting) ⟨hsame' ▸ hholds.1, hsame' ▸ hholds.2⟩ (hsame' ▸ hwork')
  · by_cases hnew : t = size
    · rw [hnew, hself]
      exact ⟨work, .ready work, hwork⟩
    · rw [hother hnew]
      exact h.aside t hle (Nat.lt_of_le_of_ne (Nat.le_of_lt_succ ht) hnew)
  · by_cases hnew : t = size
    · rw [hnew, hself]
      exact .inl rfl
    · rw [hother hnew]
      exact h.listener t
  · obtain ⟨next, hawaiting⟩ := h.held waiter holder (holds_of hholds).2
    have hne : waiter ≠ size := h.ne_size (by rw [hawaiting]; nofun)
    exact ⟨next, hother hne ▸ hawaiting⟩

/-- A run starts work in the background and waits for it. -/
theorem awaits (h : Sound store runs size said c) {i : TaskId} {process work : Process}
    {next : Option Outcome → Process} (hi : runs[i]? = some process)
    (hstate : (c i).1 = .ready (.await work next)) :
    Sound store runs (size + 1) said
      ((c.put size (.ready work) (.handle i)).becomes i (.awaiting next)) := by
  have hlt : i < size := h.lt_size (by rw [hstate]; nofun)
  generalize hc' : (c.put size (.ready work) (.handle i)).becomes i (.awaiting next) = c'
  obtain ⟨hnobody, rest, hleft, hrest⟩ := h.run i process hi
  have hi' : c' i = (.awaiting next, .nobody) := by
    rw [← hc', Core.becomes, put_self, c.put_of_ne hlt.ne, hnobody]
  have hnew : c' size = (.ready work, .handle i) := by
    rw [← hc', Core.becomes, put_of_ne _ hlt.ne', put_self]
  have hother : ∀ {t}, t ≠ i → t ≠ size → c' t = c t := fun ht ht' => by
    rw [← hc', Core.becomes, put_of_ne _ ht, put_of_ne _ ht']
  have hnot : ∀ {holder}, ¬c.Holds i holder := fun hholds => by
    obtain ⟨_, hawaiting⟩ := h.held i _ hholds
    rw [hstate] at hawaiting
    cases hawaiting
  have holds_of : ∀ {waiter holder}, c'.Holds waiter holder →
      waiter = i ∧ holder = size ∨ holder ≠ size ∧ c.Holds waiter holder :=
    fun {waiter holder} hholds => by
      by_cases hhold : holder = size
      · rw [hhold] at hholds
        have hlistener := hholds.1
        rw [hnew] at hlistener
        cases hlistener
        exact .inl ⟨rfl, hhold⟩
      · have hne : holder ≠ i := fun heq => not_holds_of_nobody (by rw [heq, hi']) hholds
        exact .inr ⟨hhold, hother hne hhold ▸ hholds.1, hother hne hhold ▸ hholds.2⟩
  have hrun : rest = .await work next := by
    cases hleft with
    | has hhas =>
      rw [hstate] at hhas
      exact hhas.unique (.ready _)
    | awaits hawaiting => rw [hstate] at hawaiting; cases hawaiting
  subst hrun
  refine ⟨Nat.le_succ_of_le h.length, fun t ht => ?_, fun k other hk => ?_, fun t hle ht => ?_,
    fun t => ?_, fun waiter holder hholds => ?_, fun waiter holder other hholds hholds' => ?_,
    h.quiet⟩
  · rw [hother (Nat.ne_of_gt (Nat.lt_trans hlt ht)) (Nat.ne_of_gt ht),
      h.fresh t (Nat.le_of_succ_le ht)]
  · by_cases hki : k = i
    · subst hki
      obtain rfl := Option.some.inj (hi.symm.trans hk)
      refine ⟨by rw [hi'], _, .awaits (by rw [hi']) ⟨by rw [hnew], by rw [hnew]; rfl⟩
        (by rw [hnew]; exact .ready work), hrest⟩
    · have hklt : k < size := Nat.lt_of_lt_of_le (List.getElem?_eq_some_iff.1 hk).1 h.length
      have hsame := hother hki hklt.ne
      obtain ⟨hnobody', rest', hleft', hrest'⟩ := h.run k other hk
      refine ⟨hsame ▸ hnobody', rest', ?_, hrest'⟩
      cases hleft' with
      | has hhas => exact .has (hsame ▸ hhas)
      | @awaits holder _ _ hawaiting hholds hwork' =>
        have hne : holder ≠ i := fun heq => not_holds_of_nobody (heq ▸ hnobody) hholds
        have hsame' := hother hne (h.ne_size hwork'.ne_draining)
        exact .awaits (hsame ▸ hawaiting) ⟨hsame' ▸ hholds.1, hsame' ▸ hholds.2⟩ (hsame' ▸ hwork')
  · by_cases htnew : t = size
    · rw [htnew, hnew]
      cases hrest.1 with
      | await hwork => exact ⟨work, .ready work, hwork⟩
    · have hti : t ≠ i := fun heq => by
        have := (List.getElem?_eq_some_iff.1 hi).1
        omega
      rw [hother hti htnew]
      exact h.aside t hle (by omega)
  · by_cases htnew : t = size
    · exact .inr ⟨i, by rw [htnew, hnew]⟩
    · by_cases hti : t = i
      · exact .inl (by rw [hti, hi'])
      · rw [hother hti htnew]
        exact h.listener t
  · rcases holds_of hholds with ⟨rfl, -⟩ | ⟨-, hholds⟩
    · exact ⟨next, by rw [hi']⟩
    · obtain ⟨next', hawaiting⟩ := h.held waiter holder hholds
      have hne : waiter ≠ i := fun heq => hnot (heq ▸ hholds)
      have hsame := hother hne (h.ne_size (by rw [hawaiting]; nofun))
      exact ⟨next', hsame ▸ hawaiting⟩
  · rcases holds_of hholds with ⟨rfl, rfl⟩ | ⟨-, hholds⟩
    · rcases holds_of hholds' with ⟨-, rfl⟩ | ⟨-, hholds'⟩
      · rfl
      · exact absurd hholds' hnot
    · rcases holds_of hholds' with ⟨rfl, -⟩ | ⟨-, hholds'⟩
      · exact absurd hholds hnot
      · exact h.unique waiter holder other hholds hholds'

/-- A task that holds a completion handle lets go of it, and the run that waits for it goes on with
what the work was going to make of the handle. -/
theorem release (h : Sound store runs size said c) {i id : TaskId} {state : TaskState}
    {listener : Listener} {work after : Process} {next : Option Outcome → Process}
    (hholds : c.Holds i id) (hawaiting : (c i).1 = .awaiting next) (hwork : (c id).1.Has work)
    (hafter : state.Has after) (haside : work.Aside → after.Aside)
    (hgone : listener = .nobody ∨ listener = .handle i ∧ state.isEnded = true) :
    Sound store runs size said
      ((c.put id state listener).becomes i (.ready (next ((work.used store).getD none)))) := by
  have hi : i < runs.length := by
    by_contra hle
    obtain ⟨other, hother, -⟩ := h.aside i (Nat.le_of_not_lt hle)
      (h.lt_size (by rw [hawaiting]; nofun))
    exact hother.ne_awaiting _ hawaiting
  obtain ⟨hnobody, rest, hleft, hrest, hevents, houtcome⟩ :=
    h.run i runs[i] (List.getElem?_eq_getElem hi)
  have hnotrun : ∀ k process, runs[k]? = some process → k ≠ id := fun k process hk heq =>
    not_holds_of_nobody (heq ▸ (h.run k process hk).1) hholds
  have hne : i ≠ id := hnotrun i _ (List.getElem?_eq_getElem hi)
  generalize hc' : (c.put id state listener).becomes i _ = c'
  have hi' : c' i = (.ready (next ((work.used store).getD none)), .nobody) := by
    rw [← hc', Core.becomes, put_self, c.put_of_ne hne, hnobody]
  have hid' : c' id = (state, listener) := by
    rw [← hc', Core.becomes, put_of_ne _ hne.symm, put_self]
  have hother : ∀ {t}, t ≠ i → t ≠ id → c' t = c t := fun ht ht' => by
    rw [← hc', Core.becomes, put_of_ne _ ht, put_of_ne _ ht']
  have holds_of : ∀ {waiter holder}, c'.Holds waiter holder →
      waiter ≠ i ∧ c.Holds waiter holder := fun {waiter holder} hholds' => by
    have hnei : holder ≠ i := fun heq => not_holds_of_nobody (by rw [heq, hi']) hholds'
    have hneid : holder ≠ id := fun heq => by
      obtain ⟨hlistener, hlive⟩ := hholds'
      rw [heq, hid'] at hlistener hlive
      rcases hgone with hgone | ⟨-, hended⟩
      · exact nomatch hgone.symm.trans hlistener
      · exact nomatch hended.symm.trans hlive
    have hholds' : c.Holds waiter holder := by
      have hsame := hother hnei hneid
      exact ⟨hsame ▸ hholds'.1, hsame ▸ hholds'.2⟩
    exact ⟨fun heq => hneid (h.unique i holder id (heq ▸ hholds') hholds), hholds'⟩
  have hlt : id < size := h.lt_size hwork.ne_draining
  refine ⟨h.length, fun t ht => ?_, fun k process hk => ?_, fun t hle ht => ?_, fun t => ?_,
    fun waiter holder hholds' => ?_, fun waiter holder other hholds' hholds'' =>
      h.unique waiter holder other (holds_of hholds').2 (holds_of hholds'').2, h.quiet⟩
  · rw [hother (Nat.ne_of_gt (Nat.lt_of_lt_of_le (Nat.lt_of_lt_of_le hi h.length) ht))
      (Nat.ne_of_gt (Nat.lt_of_lt_of_le hlt ht)), h.fresh t ht]
  · by_cases hki : k = i
    · subst hki
      rw [List.getElem?_eq_getElem hi] at hk
      obtain rfl := Option.some.inj hk
      refine ⟨by rw [hi'], _, .has (by rw [hi']; exact .ready _), ?_⟩
      cases hleft with
      | has hhas => exact absurd hawaiting (hhas.ne_awaiting _)
      | awaits hawaiting' hholds' hwork' =>
        obtain rfl := h.unique _ _ _ hholds' hholds
        obtain rfl := hwork.unique hwork'
        rw [hawaiting] at hawaiting'
        cases hawaiting'
        cases hrest with
        | await _ hnext => exact ⟨hnext _, hevents, houtcome⟩
    · have hsame := hother hki (hnotrun k process hk)
      obtain ⟨hnobody', rest', hleft', hrest'⟩ := h.run k process hk
      refine ⟨hsame ▸ hnobody', rest', ?_, hrest'⟩
      cases hleft' with
      | has hhas => exact .has (hsame ▸ hhas)
      | @awaits holder _ _ hawaiting' hholds' hwork' =>
        have hnei : holder ≠ i := fun heq => not_holds_of_nobody (heq ▸ hnobody) hholds'
        have hneid : holder ≠ id := fun heq => by
          have hlistener := hholds'.1
          rw [heq, hholds.1] at hlistener
          exact hki (Listener.handle.inj hlistener).symm
        have hsame' := hother hnei hneid
        exact .awaits (hsame ▸ hawaiting') ⟨hsame' ▸ hholds'.1, hsame' ▸ hholds'.2⟩
          (hsame' ▸ hwork')
  · by_cases htid : t = id
    · subst htid
      obtain ⟨work', hwork', haside'⟩ := h.aside t hle ht
      obtain rfl := hwork.unique hwork'
      exact ⟨after, by rw [hid']; exact hafter, haside haside'⟩
    · rw [hother (fun heq => absurd hi (Nat.not_lt.2 (heq ▸ hle))) htid]
      exact h.aside t hle ht
  · by_cases htid : t = id
    · rw [htid, hid']
      rcases hgone with hgone | ⟨hgone, -⟩
      · exact .inl hgone
      · exact .inr ⟨i, hgone⟩
    · by_cases hti : t = i
      · exact .inl (by rw [hti, hi'])
      · rw [hother hti htid]
        exact h.listener t
  · obtain ⟨hnei, hholds'⟩ := holds_of hholds'
    obtain ⟨next', hawaiting'⟩ := h.held waiter holder hholds'
    have hneid : waiter ≠ id := fun heq => hwork.ne_awaiting _ (heq ▸ hawaiting')
    exact ⟨next', hother hnei hneid ▸ hawaiting'⟩

/-- A task that does not wait is a run that only reads, or does work in the background. -/
theorem reader_or_aside (h : Sound store runs size said c) {id : TaskId} {process : Process}
    (hhas : (c id).1.Has process) :
    (∃ run, runs[id]? = some run ∧ (c id).2 = .nobody ∧ process.Reader)
      ∨ runs.length ≤ id ∧ process.Aside := by
  rcases Nat.lt_or_ge id runs.length with hlt | hle
  · obtain ⟨hnobody, rest, hleft, hrest, -⟩ := h.run id _ (List.getElem?_eq_getElem hlt)
    refine .inl ⟨_, List.getElem?_eq_getElem hlt, hnobody, ?_⟩
    cases hleft with
    | has hhas' => exact hhas.unique hhas' ▸ hrest
    | awaits hawaiting => exact absurd hawaiting (hhas.ne_awaiting _)
  · obtain ⟨work, hwork, haside⟩ := h.aside id hle (h.lt_size hhas.ne_draining)
    exact .inr ⟨hle, hhas.unique hwork ▸ haside⟩

theorem has_of_ready {id : TaskId} {process : Process} (h : (c id).1 = .ready process) :
    (c id).1.Has process :=
  h ▸ .ready process

/-- The end of a task. -/
theorem finish (h : Sound store runs size said c) {id : TaskId} {outcome : Outcome}
    (hstate : (c id).1 = .ready (.done outcome)) :
    Sound store runs size said (c.finish id outcome) := by
  have hlive : (c id).1.isEnded = false := by rw [hstate]; rfl
  rcases h.listener id with hnobody | ⟨waiter, hlistener⟩
  · have hfinish : c.finish id outcome = c.becomes id (.ended outcome) := by
      unfold Core.finish
      rw [hnobody]
    have hsound := h.becomes none (has_of_ready hstate) hlive (.ended outcome)
      (fun hreader => hreader) (fun haside => haside) ⟨rfl, rfl⟩
      (fun _ hholds => absurd hholds (not_holds_of_nobody hnobody)) nofun
    rw [Option.toList_none, List.map_nil, List.append_nil] at hsound
    exact hfinish ▸ hsound
  · have hholds : c.Holds waiter id := ⟨hlistener, hlive⟩
    obtain ⟨next, hawaiting⟩ := h.held waiter id hholds
    have hne : waiter ≠ id := fun heq => by
      rw [heq, hstate] at hawaiting
      cases hawaiting
    have hfinish : c.finish id outcome
        = (c.put id (.ended outcome) (.handle waiter)).becomes waiter (.ready (next none)) := by
      unfold Core.finish Core.deliver
      rw [hlistener]
      simp only [Core.becomes, c.put_of_ne hne, hawaiting, hlistener]
    rw [hfinish]
    exact h.release hholds hawaiting (has_of_ready hstate) (.ended outcome)
      (fun haside => haside) (.inr ⟨rfl, rfl⟩)

/-- A task in the background uses up its completion handle. -/
theorem complete (h : Sound store runs size said c) {id : TaskId} {used : Option Outcome}
    {next : Unit → Process} (hstate : (c id).1 = .ready (.complete used next)) :
    Sound store runs size said ((c.complete id used).becomes id (.ready (next ()))) := by
  have hlive : (c id).1.isEnded = false := by rw [hstate]; rfl
  -- once nobody waits for the task, what it does next is its own business
  have hgoes : ∀ {c' : Core}, Sound store runs size said c' → (c' id).1 = (c id).1 →
      (c' id).2 = .nobody → Sound store runs size said (c'.becomes id (.ready (next ()))) :=
    fun {c'} h' hsame hnobody => by
      have hstate' := hsame.trans hstate
      have hsound := h'.becomes none (has_of_ready hstate') (hsame ▸ hlive) (.ready (next ()))
        (fun hreader => nomatch hreader) (fun haside => by cases haside; assumption) ⟨rfl, rfl⟩
        (fun _ hholds => absurd hholds (not_holds_of_nobody hnobody)) nofun
      rwa [Option.toList_none, List.map_nil, List.append_nil] at hsound
  rcases h.listener id with hnobody | ⟨waiter, hlistener⟩
  · have hcomplete : c.complete id used = c := by
      unfold Core.complete
      rw [hnobody]
    rw [hcomplete]
    exact hgoes h rfl hnobody
  · have hholds : c.Holds waiter id := ⟨hlistener, hlive⟩
    obtain ⟨next', hawaiting⟩ := h.held waiter id hholds
    have hne : waiter ≠ id := fun heq => by
      rw [heq, hstate] at hawaiting
      cases hawaiting
    have hcomplete : c.complete id used
        = (c.put id (c id).1 .nobody).becomes waiter (.ready (next' used)) := by
      unfold Core.complete Core.deliver
      rw [hlistener]
      simp only [c.put_of_ne hne, hawaiting]
    have hself : c.complete id used id = ((c id).1, .nobody) := by
      rw [hcomplete, Core.becomes, put_of_ne _ hne.symm, put_self]
    refine hgoes ?_ (by rw [hself]) (by rw [hself])
    rw [hcomplete]
    exact h.release hholds hawaiting (has_of_ready hstate) (has_of_ready hstate)
      (fun haside => haside) (.inl rfl)

/-- Whatever the next move is, the runs stay on their course. -/
theorem goes (h : Sound store runs size said c) {m : Move} {puts : List (TaskId × Event)}
    {size' : Nat} {c' : Core} (hgoes : c.Goes store size m puts size' c') :
    Sound store runs size' (said ++ puts) c' := by
  have hlive : ∀ {id process}, (c id).1 = .ready process → (c id).1.isEnded = false :=
    fun hstate => by rw [hstate]; rfl
  cases hgoes with
  | wait | stay | prefer => rwa [List.append_nil]
  | done hstate =>
    rw [List.append_nil]
    exact h.finish hstate
  | ask hstate =>
    exact h.becomes none (has_of_ready hstate) (hlive hstate) (.ready _)
      (fun hreader => by cases hreader with | ask _ _ h => exact h _)
      (fun haside => by cases haside with | ask _ _ h => exact h _) ⟨rfl, rfl⟩
      (fun _ _ => ⟨rfl, rfl⟩) nofun
  | @emit id event next hstate =>
    exact h.becomes (some event) (has_of_ready hstate) (hlive hstate) (.ready _)
      (fun hreader => by cases hreader; assumption) (fun haside => by cases haside; assumption)
      ⟨rfl, rfl⟩ (fun _ _ => ⟨rfl, rfl⟩)
      (fun haside e he => by cases haside with | emit hevent _ => exact Option.some.inj he ▸ hevent)
  | @sleep id ms next hstate =>
    exact h.becomes none (has_of_ready hstate) (hlive hstate) (.asleep next)
      (fun hreader => by cases hreader; assumption) (fun haside => by cases haside; assumption)
      ⟨rfl, rfl⟩ (fun _ _ => ⟨rfl, rfl⟩) nofun
  | @start id work next hstate =>
    obtain ⟨hnobody, hwork⟩ : (c id).2 = .nobody ∧ work.Aside := by
      rcases h.reader_or_aside (has_of_ready hstate) with ⟨_, -, hnobody, hreader⟩ | ⟨-, haside⟩
      · cases hreader with | start hwork _ => exact ⟨hnobody, hwork⟩
      · cases haside
    have hsame := c.put_of_ne (h.ne_size (has_of_ready hstate).ne_draining) (.ready work) .nobody
    have hstate' := hsame ▸ hstate
    exact (h.spawn hwork).becomes none (has_of_ready hstate') (by rw [hstate']; rfl) (.ready _)
      (fun hreader => by cases hreader; assumption) (fun haside => nomatch haside) ⟨rfl, rfl⟩
      (fun _ hholds => absurd hholds (not_holds_of_nobody (hsame ▸ hnobody))) nofun
  | await hstate =>
    rw [List.append_nil]
    rcases h.reader_or_aside (has_of_ready hstate) with ⟨_, hrun, -, -⟩ | ⟨-, haside⟩
    · exact h.awaits hrun hstate
    · cases haside
  | complete hstate =>
    rw [List.append_nil]
    exact h.complete hstate
  | @rouse id next hstate =>
    exact h.becomes none (hstate ▸ .asleep next) (by rw [hstate]; rfl) (.ready (next ()))
      (fun hreader => hreader) (fun haside => haside) ⟨rfl, rfl⟩ (fun _ _ => ⟨rfl, rfl⟩) nofun

theorem ne_joining (h : Sound store runs size said c) (id : TaskId) (join : Join) :
    (c id).1 ≠ .joining join := by
  intro hstate
  have hnot : ∀ {process}, ¬(c id).1.Has process := fun hhas => by
    rw [hstate] at hhas
    cases hhas
  have hid : id < size := h.lt_size (by rw [hstate]; nofun)
  rcases Nat.lt_or_ge id runs.length with hlt | hle
  · obtain ⟨-, rest, hleft, -⟩ := h.run id _ (List.getElem?_eq_getElem hlt)
    cases hleft with
    | has hhas => exact hnot hhas
    | awaits hawaiting => rw [hstate] at hawaiting; cases hawaiting
  · obtain ⟨work, hwork, -⟩ := h.aside id hle hid
    exact hnot hwork

end Sound

end Core

end BehaviorTree
