import BehaviorTree.Proofs.Handover
import BehaviorTree.Proofs.Interleaving

/-!
# What a parallel node is still to hear of

While a task waits for parallel children, each child has a task of its own that reports to it, and
the outcomes that came in, taken in or not, are as many as children have ended; and it has not taken
in all of them (`Join.Linked`). Every move keeps this so (`Machine.linked_invariant`). So once all
children have ended, the waiting task has enough to go on with (`Join.Linked.exists_take`).
-/

namespace BehaviorTree

/-- Whether parallel children are waited for. -/
def TaskState.isJoining : TaskState → Bool
  | joining _ => true
  | _ => false

namespace Join

theorem take_shape : ∀ (arrived : List (Nat × Outcome)) (join : Join),
    (join.take arrived).1.branches = join.branches ∧ (join.take arrived).1.flags = join.flags
  | [], _ => ⟨rfl, rfl⟩
  | (index, outcome) :: rest, join => by
    rw [take_cons]
    split
    · exact ⟨rfl, rfl⟩
    · exact take_shape rest (join.took index outcome rest)

/-- A node that waits on has taken in all that came, and that was not everything. -/
theorem taken_take : ∀ (arrived : List (Nat × Outcome)) (join : Join),
    (join.take arrived).2 = none →
    (join.take arrived).1.taken = join.taken + arrived.length ∧ (join.take arrived).1.arrived = []
      ∧ (join.taken < join.flags.length → (join.take arrived).1.taken < join.flags.length)
  | [], _, _ => ⟨rfl, rfl, id⟩
  | (index, outcome) :: rest, join, h => by
    rw [take_cons] at h ⊢
    split at h
    · cases h
    · rename_i hon
      obtain ⟨htaken, harrived, hlt⟩ := taken_take rest (join.took index outcome rest) h
      rw [if_neg hon]
      rw [Bool.or_eq_true, decide_eq_true_eq, not_or] at hon
      refine ⟨htaken.trans ?_, harrived, fun hjoin => hlt (Nat.lt_of_le_of_ne hjoin hon.2)⟩
      show join.taken + 1 + rest.length = _
      rw [List.length_cons]
      omega

/-- A task that waits for children whose tasks report to it. -/
structure Linked (machine : Machine) (id : TaskId) (join : Join) : Prop where
  nodup : join.branches.Nodup
  length : join.branches.length = join.flags.length
  taken : join.flags ≠ [] → join.taken < join.flags.length
  listener : ∀ b ∈ join.branches, ∃ index, (machine.task b).listener = .branch id index
  ended : join.branches.countP (fun b => (machine.task b).state.isEnded)
    ≤ join.taken + join.arrived.length

/-- A task stays linked to its children's if they stay as they are. -/
theorem Linked.of_kept {machine after : Machine} {id : TaskId} {join : Join}
    (h : join.Linked machine id)
    (hkept : ∀ b index, (machine.task b).listener = .branch id index →
      (after.task b).listener = .branch id index
        ∧ (after.task b).state.isEnded = (machine.task b).state.isEnded) :
    join.Linked after id := by
  refine ⟨h.nodup, h.length, h.taken, fun b hb => ?_, ?_⟩
  · obtain ⟨index, hlistener⟩ := h.listener b hb
    exact ⟨index, (hkept b index hlistener).1⟩
  · refine Nat.le_trans (Nat.le_of_eq (List.countP_congr fun b hb => ?_)) h.ended
    obtain ⟨index, hlistener⟩ := h.listener b hb
    rw [(hkept b index hlistener).2]

/-- A node whose children have all ended has enough to go on with. -/
theorem Linked.exists_take {machine : Machine} {id : TaskId} {join : Join}
    (h : join.Linked machine id) (hne : join.branches ≠ [])
    (hended : ∀ b ∈ join.branches, (machine.task b).state.isEnded) :
    ∃ outcome, (join.take join.arrived).2 = some outcome := by
  cases htake : (join.take join.arrived).2 with
  | some outcome => exact ⟨outcome, rfl⟩
  | none =>
    have hflags : join.flags ≠ [] := fun hnil =>
      hne (List.eq_nil_of_length_eq_zero (by rw [h.length, hnil, List.length_nil]))
    have hall := List.countP_eq_length.2 hended
    obtain ⟨htaken, -, hlt⟩ := taken_take join.arrived join htake
    have hlt := hlt (h.taken hflags)
    have hcount := h.ended
    rw [hall, h.length] at hcount
    omega

end Join

namespace Machine

/-- Every task that waits for parallel children is linked to theirs. -/
def Linked (machine : Machine) : Prop :=
  ∀ id join, (machine.task id).state = .joining join → join.Linked machine id

theorem ne_of_isBranch {machine : Machine} {id b parent : TaskId} {index : Nat}
    (h : (machine.task b).listener = .branch parent index)
    (hlistener : (machine.task id).listener.isBranch = false) : b ≠ id := by
  rintro rfl
  rw [h] at hlistener
  cases hlistener

theorem task_of_le {machine : Machine} {t : TaskId} (h : machine.tasks.size ≤ t) :
    machine.task t = default := by
  rw [task, Array.getD_eq_getD_getElem?, Array.getElem?_eq_none h]
  rfl

theorem lt_size_of_listener {machine : Machine} {t : TaskId}
    (h : (machine.task t).listener ≠ .nobody) : t < machine.tasks.size := by
  by_contra hlt
  rw [task_of_le (Nat.le_of_not_lt hlt)] at h
  exact h rfl

theorem lt_size_of_branch {machine : Machine} {b parent : TaskId} {index : Nat}
    (h : (machine.task b).listener = .branch parent index) : b < machine.tasks.size :=
  lt_size_of_listener (by simp [h])

/-- Who waits for children after a task goes on to something else did so before. -/
theorem joining_of_setState {machine : Machine} {id t : TaskId} {state : TaskState} {join : Join}
    (hstate : state.isJoining = false)
    (h : ((machine.setState id state).task t).state = .joining join) :
    (machine.task t).state = .joining join := by
  rw [Machine.setState, task_changeTask] at h
  split at h
  · rw [show state = .joining join from h] at hstate
    cases hstate
  · exact h

/-- The only new task is the one that drains the node. -/
theorem state_drain_of_le {machine : Machine} (join : Join) {t : TaskId}
    (h : machine.tasks.size ≤ t) : ((machine.drain join).task t).state = .draining := by
  have hspawned : ((machine.spawn .draining .nobody).2.task t).state = .draining := by
    rw [task_spawn_eq]
    split
    · rfl
    · rw [task_of_le h]
      rfl
  unfold drain
  split
  · rw [task_of_le h]
    rfl
  · have hredirected := task_foldl_changeTask (redirect_redirect machine.tasks.size) t join.branches
      (machine.spawn .draining .nobody).2
    refine (congrArg Task.state hredirected).trans ?_
    split
    · exact (redirect_state _ _).1.trans hspawned
    · exact hspawned

theorem isEnded_setState {machine : Machine} {id : TaskId} {state : TaskState}
    (hsame : (machine.task id).state.isEnded = state.isEnded) (t : TaskId) :
    ((machine.setState id state).task t).state.isEnded = (machine.task t).state.isEnded := by
  rw [Machine.setState, task_changeTask]
  split
  · rename_i h
    rw [← h.1, hsame]
  · rfl

/-- A task stays linked to its children's when some task goes from one thing to another. -/
theorem linked_setState {machine : Machine} {id t : TaskId} {join : Join}
    (h : join.Linked machine t) {state : TaskState}
    (hsame : (machine.task id).state.isEnded = state.isEnded) :
    join.Linked (machine.setState id state) t :=
  h.of_kept fun b index hlistener => by
    rw [listener_setState, isEnded_setState hsame]
    exact ⟨hlistener, rfl⟩

namespace Linked

variable {machine after : Machine} {id : TaskId}

/-- What keeps the tasks that report to others as they are, and lets nobody begin to wait for
children. -/
theorem of_frame (h : machine.Linked)
    (hjoining : ∀ t join, (after.task t).state = .joining join →
      (machine.task t).state = .joining join)
    (hkept : ∀ b t index, (machine.task b).listener = .branch t index →
      (∃ join, (after.task t).state = .joining join) →
      (after.task b).listener = .branch t index
        ∧ (after.task b).state.isEnded = (machine.task b).state.isEnded) : after.Linked :=
  fun t join hstate => (h t join (hjoining t join hstate)).of_kept fun b index hlistener =>
    hkept b t index hlistener ⟨join, hstate⟩

theorem congr (h : machine.Linked) (hsame : machine.Resembles after)
    (hlistener : ∀ t, (after.task t).listener = (machine.task t).listener) : after.Linked := by
  refine h.of_frame (fun t join hstate => ?_) fun b parent index hbranch _ => ⟨?_, ?_⟩
  · rwa [hsame.state] at hstate
  · rwa [hlistener]
  · rw [hsame.state]

theorem wake (h : machine.Linked) (id : TaskId) : (machine.wake id).Linked :=
  h.congr (machine.resembles_wake id) (machine.listener_wake id)

theorem withWorld (h : machine.Linked) (world : World) : { machine with world }.Linked :=
  h.of_frame (fun _ _ hstate => hstate) fun _ _ _ hbranch _ => ⟨hbranch, rfl⟩

/-- A task goes from one thing to another, but not to the end of it. -/
theorem setState (h : machine.Linked) {before : TaskState}
    (hbefore : (machine.task id).state = before) (state : TaskState)
    (hlive : before.isEnded = state.isEnded) (hjoining : state.isJoining = false) :
    (machine.setState id state).Linked := by
  refine h.of_frame (fun t join => joining_of_setState hjoining) fun b parent index hbranch _ => ?_
  rw [listener_setState, hbranch]
  exact ⟨rfl, isEnded_setState (hbefore ▸ hlive) b⟩

/-- A task that waits for children has heard of more of them, or has taken in more. -/
theorem setState_joining (h : machine.Linked) {join later : Join}
    (hstate : (machine.task id).state = .joining join) (hbranches : later.branches = join.branches)
    (hflags : later.flags = join.flags)
    (htaken : later.flags ≠ [] → later.taken < later.flags.length)
    (hcount : join.taken + join.arrived.length ≤ later.taken + later.arrived.length) :
    (machine.setState id (.joining later)).Linked := by
  have hsame : (machine.task id).state.isEnded = (TaskState.joining later).isEnded := by
    rw [hstate]
    rfl
  intro t other ht
  by_cases hid : id = t
  · subst hid
    rw [state_setState machine (lt_size_of_joining hstate)] at ht
    obtain rfl := TaskState.joining.inj ht
    have hlinked := h id join hstate
    refine ⟨hbranches ▸ hlinked.nodup, ?_, htaken, fun b hb => ?_, ?_⟩
    · rw [hbranches, hflags, hlinked.length]
    · rw [listener_setState]
      exact hlinked.listener b (hbranches ▸ hb)
    · simp only [isEnded_setState hsame, hbranches]
      exact hlinked.ended.trans hcount
  · rw [task_setState_of_ne machine hid] at ht
    exact linked_setState (h t other ht) hsame

theorem spawn (h : machine.Linked) (state : TaskState) (hstate : state.isJoining = false)
    (listener : Listener) : (machine.spawn state listener).2.Linked := by
  refine h.of_frame (fun t join ht => ?_) fun b parent index hbranch _ => ?_
  · rw [task_spawn_eq] at ht
    split at ht
    · rw [show state = .joining join from ht] at hstate
      cases hstate
    · exact ht
  · rw [machine.task_spawn (lt_size_of_branch hbranch)]
    exact ⟨hbranch, rfl⟩

theorem deliver (h : machine.Linked) (waiter : TaskId) (used : Option Outcome) :
    (machine.deliver waiter used).Linked := by
  unfold Machine.deliver
  split
  · rename_i hstate
    exact (h.setState hstate (.ready _) rfl rfl).wake waiter
  · exact h

/-- A task that has a completion handle, and so is nobody's child, is rid of it. -/
theorem letGo (h : machine.Linked) (hbranch : (machine.task id).listener.isBranch = false) :
    (machine.changeTask id fun task => { task with listener := .nobody }).Linked := by
  refine h.of_frame (fun t join ht => ?_) fun b parent index hb _ => ?_
  · rw [task_changeTask] at ht
    split at ht
    · exact ht
    · exact ht
  · rw [task_changeTask, if_neg fun heq => ne_of_isBranch hb hbranch heq.1.symm]
    exact ⟨hb, rfl⟩

theorem complete (h : machine.Linked) (id : TaskId) (used : Option Outcome) :
    (machine.complete id used).Linked := by
  unfold Machine.complete
  split
  · rename_i hlistener
    exact (h.letGo (by rw [hlistener]; rfl)).deliver _ used
  · exact h

/-- Nobody waits for a task to end that is nobody's child. -/
theorem setState_ended (h : machine.Linked) (hbranch : (machine.task id).listener.isBranch = false)
    (outcome : Outcome) : (machine.setState id (.ended outcome)).Linked := by
  refine h.of_frame (fun t join => joining_of_setState rfl) fun b parent index hb _ => ?_
  rw [task_setState_of_ne machine (ne_of_isBranch hb hbranch).symm]
  exact ⟨hb, rfl⟩

/-- A child that has ended makes one more. -/
theorem countP_setState_ended_le {branches : List TaskId} (hnodup : branches.Nodup)
    (machine : Machine) (id : TaskId) (outcome : Outcome) :
    branches.countP (fun b => ((machine.setState id (.ended outcome)).task b).state.isEnded)
      ≤ branches.countP (fun b => (machine.task b).state.isEnded) + 1 := by
  have hsubset : branches.filter
        (fun b => ((machine.setState id (.ended outcome)).task b).state.isEnded)
      ⊆ id :: branches.filter fun b => (machine.task b).state.isEnded := fun b hb => by
    obtain ⟨hmem, hended⟩ := List.mem_filter.1 hb
    by_cases hid : id = b
    · exact hid ▸ List.mem_cons_self
    · rw [task_setState_of_ne machine hid] at hended
      exact List.mem_cons_of_mem _ (List.mem_filter.2 ⟨hmem, hended⟩)
  rw [List.countP_eq_length_filter, List.countP_eq_length_filter]
  exact (List.subperm_of_subset (hnodup.filter _) hsubset).length_le

/-- A child that ends reports to its parallel node. -/
theorem arrive_ended (h : machine.Linked) {parent : TaskId} {index : Nat}
    (hlistener : (machine.task id).listener = .branch parent index) (outcome : Outcome) :
    ((machine.setState id (.ended outcome)).arrive parent index outcome).Linked := by
  generalize hended : machine.setState id (.ended outcome) = ended
  have hother : ∀ t, t ≠ id → ended.task t = machine.task t := fun t ht =>
    hended ▸ machine.task_setState_of_ne ht.symm _
  have hlisteners : ∀ t, (ended.task t).listener = (machine.task t).listener := fun t =>
    hended ▸ machine.listener_setState id t _
  have hjoining : ∀ t join, (ended.task t).state = .joining join →
      (machine.task t).state = .joining join := fun t join ht =>
    joining_of_setState rfl (hended ▸ ht)
  -- nobody but the parent waits for the child
  have hframe : ∀ {b t : TaskId} {i : Nat}, (machine.task b).listener = .branch t i → t ≠ parent →
      (ended.task b).listener = .branch t i
        ∧ (ended.task b).state.isEnded = (machine.task b).state.isEnded :=
    fun {b t i} hb ht => by
      have hid : b ≠ id := fun heq => by
        rw [heq, hlistener] at hb
        exact ht (Listener.branch.inj hb).1.symm
      rw [hother b hid]
      exact ⟨hb, rfl⟩
  unfold Machine.arrive
  split
  · rename_i join hstate
    have hsame : (ended.task parent).state.isEnded = (TaskState.joining { join with
        arrived := join.arrived ++ [(index, outcome)] }).isEnded := by
      rw [hstate]
      rfl
    refine wake (fun t other ht => ?_) parent
    by_cases hparent : parent = t
    · subst hparent
      rw [state_setState ended (lt_size_of_joining hstate)] at ht
      obtain rfl := TaskState.joining.inj ht
      have hlinked := h parent join (hjoining parent join hstate)
      refine ⟨hlinked.nodup, hlinked.length, hlinked.taken, fun b hb => ?_, ?_⟩
      · rw [listener_setState, hlisteners]
        exact hlinked.listener b hb
      · have hmore := countP_setState_ended_le hlinked.nodup machine id outcome
        simp only [isEnded_setState hsame, List.length_append, List.length_singleton]
        rw [hended] at hmore
        exact hmore.trans (Nat.add_le_add_right hlinked.ended 1)
    · rw [task_setState_of_ne ended hparent] at ht
      exact linked_setState ((h t other (hjoining t other ht)).of_kept fun b i hb =>
        hframe hb (Ne.symm hparent)) hsame
  · rename_i hstate
    refine wake (h.of_frame hjoining fun b t i hb hwaits => hframe hb ?_) parent
    rintro rfl
    obtain ⟨join, hjoin⟩ := hwaits
    exact hstate join hjoin

theorem finish (h : machine.Linked) (id : TaskId) (outcome : Outcome) :
    (machine.finish id outcome).Linked := by
  unfold Machine.finish
  simp only [listener_setState]
  split
  · rename_i hlistener
    exact h.setState_ended (by rw [hlistener]; rfl) outcome
  · rename_i hlistener
    exact h.arrive_ended hlistener outcome
  · rename_i hlistener
    exact (h.setState_ended (by rw [hlistener]; rfl) outcome).deliver _ none

/-- A parallel node that has its result leaves the children it did not wait for to another task. -/
theorem drain_setState (h : machine.Linked) {join later : Join}
    (hstate : (machine.task id).state = .joining join) (hbranches : later.branches = join.branches)
    (process : Process) : ((machine.drain later).setState id (.ready process)).Linked := by
  have hid := lt_size_of_joining hstate
  have hkeeps := machine.drain_keeps later
  have hsize := (machine.retains_drain later).size
  have hisEnded : ∀ b, (((machine.drain later).setState id (.ready process)).task b).state.isEnded
      = ((machine.drain later).task b).state.isEnded :=
    isEnded_setState (by rw [hkeeps.state id hid, hstate]; rfl)
  have hjoining : ∀ t other,
      (((machine.drain later).setState id (.ready process)).task t).state = .joining other →
      t ≠ id ∧ (machine.task t).state = .joining other := fun t other ht => by
    by_cases heq : id = t
    · subst heq
      rw [state_setState _ (Nat.lt_of_lt_of_le hid hsize)] at ht
      cases ht
    · rw [task_setState_of_ne _ heq] at ht
      refine ⟨Ne.symm heq, ?_⟩
      by_cases hlt : t < machine.tasks.size
      · rwa [hkeeps.state t hlt] at ht
      · rw [state_drain_of_le later (Nat.le_of_not_lt hlt)] at ht
        cases ht
  refine h.of_frame (fun t other ht => (hjoining t other ht).2) fun b t index hb ⟨other, ht⟩ => ?_
  have hlt := lt_size_of_branch hb
  have hnot : b ∉ later.branches := fun hmem => by
    obtain ⟨_, hown⟩ := (h id join hstate).listener b (hbranches ▸ hmem)
    exact (hjoining t other ht).1 (Listener.branch.inj (hb.symm.trans hown)).1
  rw [hisEnded, listener_setState, drain_task machine later hlt, if_neg fun hmem => hnot hmem.1]
  exact ⟨hb, rfl⟩

theorem spawnBranches (h : machine.Linked) (parent : TaskId) (children : List (Bool × Process))
    (index : Nat) : (machine.spawnBranches parent index children).2.Linked := by
  induction children generalizing machine index with
  | nil => exact h
  | cons child rest ih => exact ih (h.spawn (.ready child.2) rfl _) (index + 1)

/-- A task begins to wait for parallel children. -/
theorem parallel (h : machine.Linked) (hlive : (machine.task id).state.isEnded = false)
    (hid : id < machine.tasks.size) (policy : Policy) (input : Value)
    (children : List (Bool × Process)) (next : Outcome → Process) :
    (carryOut id (.parallel policy input children next) machine).Linked := by
  have hstate := state_carryOut_parallel machine hid policy input children next
  intro t join ht
  by_cases heq : id = t
  · subst heq
    obtain rfl := TaskState.joining.inj (hstate.symm.trans ht)
    refine ⟨List.nodup_range', by simp [Join.start], List.length_pos_iff.2, fun b hb => ?_,
      Nat.le_of_eq (List.countP_eq_zero.2 fun b hb => ?_)⟩
    · obtain ⟨i, child, -, htask⟩ :=
        exists_task_carryOut_parallel machine hid policy input next hb
      rw [htask]
      exact ⟨i, rfl⟩
    · obtain ⟨i, child, -, htask⟩ :=
        exists_task_carryOut_parallel machine hid policy input next hb
      rw [htask]
      exact Bool.false_ne_true
  · have hspawned := h.spawnBranches id children 0
    have hsame := task_spawnBranches id children 0 hid
    rw [spawnBranches_eq] at hspawned hsame
    rw [carryOut, spawnBranches_eq] at ht ⊢
    simp only [] at ht hspawned hsame ⊢
    rw [state_wake, task_setState_of_ne _ heq] at ht
    refine (hspawned t join ht).of_kept fun b i hb => ?_
    rw [listener_wake, listener_setState, state_wake,
      isEnded_setState (by rw [hsame]; exact hlive)]
    exact ⟨hb, rfl⟩

/-- The next thing that a process does, for a task. -/
theorem stepProcess {q : Process} : ∀ (process : Process) {machine : Machine}, machine.Linked →
    id < machine.tasks.size → (machine.task id).state = .ready q →
    (stepProcess id process machine).Linked
  | .done outcome, _, h, _, _ => h.finish id outcome
  | .ask scope request next, machine, h, _, hstate =>
    (h.withWorld (machine.world.ask scope request).2).setState hstate (.ready _) rfl rfl
  | .emit event next, machine, h, hid, hstate => by
    have hworld := h.withWorld (machine.world.emit event)
    rw [Machine.stepProcess]
    split
    · exact stepProcess (next ()) hworld hid hstate
    · exact hworld.setState hstate (.ready _) rfl rfl
  | .sleep ms next, _, h, _, hstate => by
    have hasleep := h.setState hstate (.asleep next) rfl rfl
    exact hasleep.congr (.of_tasks rfl rfl) fun _ => rfl
  | .start work next, machine, h, hid, hstate => by
    rw [← machine.task_spawn hid (.ready work) .nobody] at hstate
    exact (h.spawn (.ready work) rfl .nobody).setState hstate (.ready _) rfl rfl
  | .await work next, machine, h, hid, hstate => by
    rw [← machine.task_spawn hid (.ready work) (.handle id)] at hstate
    exact (h.spawn (.ready work) rfl (.handle id)).setState hstate (.awaiting _) rfl rfl
  | .complete used next, machine, h, hid, hstate => by
    rw [← state_complete hid (hstate ▸ .ready q) used] at hstate
    exact (h.complete id used).setState hstate (.ready _) rfl rfl
  | .parallel policy input children next, machine, h, hid, hstate =>
    h.parallel (congrArg TaskState.isEnded hstate) hid policy input children next

theorem step (h : machine.Linked) (id : TaskId) : (machine.step id).Linked := by
  unfold Machine.step
  split
  · rename_i process hstate
    exact h.stepProcess process (lt_size_of_state machine (by simp [hstate])) hstate
  · rename_i join hstate
    obtain ⟨hbranches, hflags⟩ := join.take_shape join.arrived
    have hwaits := join.taken_take join.arrived
    split
    · rename_i later htake
      rw [htake] at hbranches hflags hwaits
      obtain ⟨htaken, harrived, hlt⟩ := hwaits rfl
      refine h.setState_joining hstate hbranches hflags (fun hne => ?_) ?_
      · rw [hflags] at hne ⊢
        exact hlt ((h id join hstate).taken hne)
      · rw [htaken]
        exact Nat.le_add_right _ _
    · rename_i later outcome htake
      rw [htake] at hbranches
      exact h.drain_setState hstate hbranches _
  · exact h

/-- Every move keeps tasks linked to their children's. -/
theorem move (h : machine.Linked) (m : Move) : (machine.move m).Linked := by
  cases m with
  | step id => exact h.step id
  | rouse id =>
    show (machine.rouse id).Linked
    unfold Machine.rouse
    split
    · rename_i hstate
      exact (h.setState hstate (.ready _) rfl rfl).wake id
    · exact h
  | prefer id k =>
    show (machine.prefer id k).Linked
    unfold Machine.prefer
    split
    · rename_i join hstate
      refine h.setState_joining hstate rfl rfl (h id join hstate).taken ?_
      simp only [List.length_append, List.length_eraseIdx]
      split
      · rename_i hk
        rw [List.getElem?_eq_getElem hk, Option.toList_some, List.length_singleton]
        omega
      · omega
    · exact h

end Linked

theorem linked_invariant : Invariant Linked :=
  ⟨Linked.move, Linked.congr⟩

theorem linked_begin (process : Process) (world : World) : (begin process world).Linked := by
  intro id join hstate
  have hid := lt_size_of_joining hstate
  obtain rfl : id = 0 := by simpa [begin] using hid
  cases hstate

end Machine

end BehaviorTree
