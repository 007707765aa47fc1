import BehaviorTree.Proofs.Decision
import BehaviorTree.Run.InPlace
import BehaviorTree.Run.Machine
import Mathlib.Data.List.GetD

/-!
# How a parallel node takes in its children

On a machine a parallel node starts one task for each child (`Machine.spawnBranches_eq`). While
children come in and other tasks have turns, it has taken in the first of those that came, and not
enough to return (`Machine.Waiting.joining`); its next turn takes in the others, up to the one with
which it returns (`Join.exists_take_eq`), and leaves every task as it is, so that the children it
did not take in go on (`Machine.drain_keeps`). In place it runs children one after the other and
leaves the others for later (`Process.exists_inPlace_parallel`). Either way it returns after as
many completions as `parallel` does, with the same outcome.
-/

namespace BehaviorTree

/-- The completions of children with some flags and outcomes, in an order of their indices. -/
def completionsOf (flags : List Bool) (outcome : Nat → Outcome) (order : List Nat) :
    List (Bool × Outcome) :=
  order.map fun i => (flags.getD i false, outcome i)

/-- The arrivals of children with some outcomes. -/
def arrivals (outcome : Nat → Outcome) (order : List Nat) : List (Nat × Outcome) :=
  order.map fun i => (i, outcome i)

@[simp] theorem map_snd_completionsOf (flags : List Bool) (outcome : Nat → Outcome)
    (order : List Nat) :
    (completionsOf flags outcome order).map Prod.snd = order.map outcome := by
  simp [completionsOf]

@[simp] theorem length_completionsOf (flags : List Bool) (outcome : Nat → Outcome)
    (order : List Nat) : (completionsOf flags outcome order).length = order.length := by
  simp [completionsOf]

/-- The arrivals that a node did not take in are the next of the completions. -/
theorem map_arrivals_drop {came order : List Nat} (hpre : came <+: order) {k : Nat}
    (hk : k ≤ came.length) (flags : List Bool) (outcome : Nat → Outcome) :
    (arrivals outcome (came.drop k)).map (fun a => (flags.getD a.1 false, a.2))
      <+: (completionsOf flags outcome order).drop k := by
  obtain ⟨more, rfl⟩ := hpre
  unfold arrivals completionsOf
  rw [List.map_map, ← List.map_drop, List.drop_append_of_le_length hk, List.map_append]
  exact List.prefix_append _ _

/-- Every child is flagged once in any order of all of them. -/
theorem countP_completionsOf {flags : List Bool} {order : List Nat}
    (horder : order.Perm (List.range flags.length)) (outcome : Nat → Outcome) :
    (completionsOf flags outcome order).countP (·.1) = flags.countP (·) := by
  have hrange : (List.range flags.length).map (fun i => flags.getD i false) = flags := by
    refine List.ext_getElem (by simp) fun i _ hi => ?_
    rw [List.getElem_map, List.getElem_range, List.getD_eq_getElem _ _ hi]
  have hperm : (order.map fun i => flags.getD i false).Perm flags := by
    have := horder.map fun i => flags.getD i false
    rwa [hrange] at this
  rw [← hperm.countP_eq, completionsOf, List.countP_map, List.countP_map]
  rfl

namespace Join

/-- A parallel node none of whose children came in. -/
def start (policy : Policy) (input : Value) (flags : List Bool) (branches : List TaskId)
    (next : Outcome → Process) : Join :=
  { policy, input, flags, branches, tally := { waitingOn := flags.countP (·) }, next }

/-- The node took in the first of some completions and has to wait for more. -/
structure Waits (completions : List (Bool × Outcome)) (join : Join) : Prop where
  flags : join.flags.length = completions.length
  after : join.tally.After join.policy completions join.taken
  lt : join.taken < completions.length
  before : ∀ j ≤ join.taken, ¬join.policy.Enough completions j

variable {completions : List (Bool × Outcome)}

/-- Of the arrivals a node takes in all and waits on, or up to the one with which it returns. -/
theorem exists_take_eq : ∀ (arrived : List (Nat × Outcome)) (join : Join),
    join.Waits completions →
    arrived.map (fun a => (join.flags.getD a.1 false, a.2)) <+: completions.drop join.taken →
    (∃ t, join.take arrived
        = ({ join with tally := t, taken := join.taken + arrived.length, arrived := [] }, none)
      ∧ Waits completions
        { join with tally := t, taken := join.taken + arrived.length, arrived := [] })
    ∨ ∃ t m rest, join.take arrived
        = ({ join with tally := t, taken := m, arrived := rest }, some (t.result join.input))
      ∧ m ≤ join.taken + arrived.length
      ∧ t.After join.policy completions m ∧ join.policy.ReturnsAfter completions m
  | [], join, h, _ => .inl ⟨join.tally, rfl, h.flags, h.after, h.lt, h.before⟩
  | (i, o) :: rest, join, h, hpre => by
    obtain ⟨more, hmore⟩ := hpre
    obtain ⟨hget, hdrop⟩ := getElem?_of_drop_eq_cons hmore.symm
    have hrest : rest.map (fun a => (join.flags.getD a.1 false, a.2))
        <+: completions.drop (join.taken + 1) := ⟨more, hdrop.symm⟩
    have hafter := h.after.record hget
    have hlt := h.lt
    have hlen : join.taken + 1 + rest.length = join.taken + ((i, o) :: rest).length := by
      simp only [List.length_cons]
      omega
    rw [← h.flags] at hafter
    simp only [take]
    by_cases hs : ((join.tally.record join.policy join.flags.length
        (join.flags.getD i false) o).settled join.policy
          || join.taken + 1 = join.flags.length) = true
    · rw [if_pos hs]
      refine .inr ⟨_, _, _, rfl, by omega, hafter, Policy.returnsAfter_of_before ?_
        fun j hj => ⟨by omega, h.before j (by omega)⟩⟩
      rw [Bool.or_eq_true, decide_eq_true_eq] at hs
      rcases hs with hs | hs
      · exact .inr (hafter.settled_iff.1 hs)
      · exact .inl (by rw [← h.flags, hs])
    · rw [if_neg hs]
      rw [Bool.or_eq_true, decide_eq_true_eq, not_or] at hs
      have hw : Waits completions { join with
          tally := join.tally.record join.policy join.flags.length (join.flags.getD i false) o
          taken := join.taken + 1
          arrived := rest } := by
        refine ⟨h.flags, hafter, ?_,
          Policy.not_enough_succ h.before fun hen => hs.1 (hafter.settled_iff.2 hen)⟩
        have := h.flags
        show join.taken + 1 < completions.length
        omega
      have ih := exists_take_eq rest _ hw hrest
      rw [hlen] at ih
      exact ih

theorem start_waits {policy : Policy} {flags : List Bool} {order : List Nat}
    (horder : order.Perm (List.range flags.length)) (hne : flags ≠ []) (outcome : Nat → Outcome)
    (input : Value) (branches : List TaskId) (next : Outcome → Process) :
    (start policy input flags branches next).Waits (completionsOf flags outcome order) := by
  have hlen : order.length = flags.length := by rw [horder.length_eq, List.length_range]
  have hpos : 0 < flags.length := List.length_pos_iff.2 hne
  refine ⟨by simp [start, hlen], ?_, by simpa [start, hlen] using hpos, fun j hj hen => ?_⟩
  · show Tally.After policy _ 0 { waitingOn := flags.countP (·) }
    rw [← countP_completionsOf horder outcome]
    exact .start
  · obtain rfl : j = 0 := Nat.le_zero.1 hj
    exact Policy.not_enough_zero hen

end Join

namespace Machine

/-- The task of a child at an index, before its first turn. -/
def branch (parent : TaskId) (index : Nat) (process : Process) : Task :=
  { state := .ready process, listener := .branch parent index, queued := true }

/-- Every child of a parallel node gets one task, with a turn to come. -/
theorem spawnBranches_eq (parent : TaskId) :
    ∀ (children : List (Bool × Process)) (index : Nat) (machine : Machine),
    machine.spawnBranches parent index children =
      (List.range' machine.tasks.size children.length, { machine with
        tasks := machine.tasks
          ++ (children.mapIdx fun i c => branch parent (index + i) c.2).toArray
        queue := machine.queue ++ List.range' machine.tasks.size children.length })
  | [], index, machine => by simp [spawnBranches]
  | (w, process) :: rest, index, machine => by
    simp only [spawnBranches, spawn]
    rw [spawnBranches_eq parent rest (index + 1)]
    simp only [Array.size_push, List.length_cons, List.range'_succ, List.mapIdx_cons,
      Nat.add_zero, List.append_assoc, List.cons_append, List.nil_append, Prod.mk.injEq, true_and]
    congr 1
    simp [branch, Nat.add_assoc, Nat.add_comm 1]

theorem task_changeTask (machine : Machine) (id t : TaskId) (f : Task → Task) :
    (machine.changeTask id f).task t
      = if id = t ∧ t < machine.tasks.size then f (machine.task t) else machine.task t := by
  unfold changeTask task
  by_cases ht : t < machine.tasks.size
  · by_cases hid : id = t
    · subst hid
      simp [ht, Array.getD_eq_getD_getElem?, Array.getElem_modify]
    · simp [ht, hid, Array.getD_eq_getD_getElem?, Array.getElem_modify]
  · simp [ht, Array.getD_eq_getD_getElem?]

/-- A child's task that reports to what drains the node. -/
def redirect (drainer : TaskId) (task : Task) : Task :=
  match task.listener with
  | .branch _ index => { task with listener := .branch drainer index }
  | _ => task

theorem redirect_redirect (drainer : TaskId) (task : Task) :
    redirect drainer (redirect drainer task) = redirect drainer task := by
  unfold redirect
  rcases hl : task.listener with _ | ⟨_, _⟩ | _ <;> simp [hl]

theorem redirect_state (drainer : TaskId) (task : Task) :
    (redirect drainer task).state = task.state
      ∧ (redirect drainer task).queued = task.queued := by
  unfold redirect
  split <;> simp

theorem task_foldl_changeTask {f : Task → Task} (hf : ∀ task, f (f task) = f task) (t : TaskId) :
    ∀ (ids : List TaskId) (machine : Machine),
    (ids.foldl (fun machine id => machine.changeTask id f) machine).task t
      = if t ∈ ids ∧ t < machine.tasks.size then f (machine.task t) else machine.task t
  | [], machine => by simp
  | id :: rest, machine => by
    have hsize : (machine.changeTask id f).tasks.size = machine.tasks.size := by
      simp [changeTask]
    rw [List.foldl_cons, task_foldl_changeTask hf t rest, task_changeTask, hsize]
    by_cases hid : id = t
    · subst hid
      by_cases ht : id < machine.tasks.size <;> simp [ht, hf]
    · simp [hid, Ne.symm hid]

theorem foldl_changeTask_eq (f : Task → Task) : ∀ (ids : List TaskId) (machine : Machine),
    ∃ tasks, ids.foldl (fun machine id => machine.changeTask id f) machine
      = { machine with tasks }
  | [], machine => ⟨machine.tasks, rfl⟩
  | id :: rest, machine => by
    obtain ⟨tasks, h⟩ := foldl_changeTask_eq f rest (machine.changeTask id f)
    exact ⟨tasks, h⟩

theorem task_spawn_eq (machine : Machine) (state : TaskState) (listener : Listener) (id : TaskId) :
    (machine.spawn state listener).2.task id
      = if id = machine.tasks.size then { state, listener, queued := true }
        else machine.task id := by
  simp only [spawn, task, Array.getD_eq_getD_getElem?, Array.getElem?_push]
  split <;> rfl

theorem task_spawn (machine : Machine) {id : TaskId} (hid : id < machine.tasks.size)
    (state : TaskState) (listener : Listener) :
    (machine.spawn state listener).2.task id = machine.task id := by
  rw [task_spawn_eq, if_neg hid.ne]

/-- A node that has its result leaves its children's tasks to themselves: those it did not take
in go on with their turns and report to a task that drains them. -/
theorem drain_task (machine : Machine) (join : Join) {t : TaskId} (ht : t < machine.tasks.size) :
    (machine.drain join).task t =
      if t ∈ join.branches ∧ join.taken ≠ join.flags.length then
        redirect machine.tasks.size (machine.task t)
      else machine.task t := by
  unfold drain
  by_cases hall : join.taken = join.flags.length
  · simp [hall]
  · have hspawn := machine.task_spawn ht .draining .nobody
    have hsize : t < (machine.spawn .draining .nobody).2.tasks.size := by
      simpa [spawn] using Nat.lt_succ_of_lt ht
    have h := task_foldl_changeTask (redirect_redirect machine.tasks.size) t join.branches
      (machine.spawn .draining .nobody).2
    rw [hspawn] at h
    simp only [hsize, and_true] at h
    simp only [hall, if_false, ne_eq, not_false_eq_true, and_true]
    exact h

/-- Every task is where it was, with the turns and the timers that it had. -/
structure Keeps (before after : Machine) : Prop where
  state : ∀ t < before.tasks.size, (after.task t).state = (before.task t).state
  queued : ∀ t < before.tasks.size, (after.task t).queued = (before.task t).queued
  queue : before.queue <+: after.queue
  timers : after.timers = before.timers
  world : after.world = before.world

theorem drain_keeps (machine : Machine) (join : Join) : machine.Keeps (machine.drain join) := by
  have hrest : machine.queue <+: (machine.drain join).queue
      ∧ (machine.drain join).timers = machine.timers
      ∧ (machine.drain join).world = machine.world := by
    unfold drain
    split
    · exact ⟨List.prefix_refl _, rfl, rfl⟩
    · obtain ⟨tasks, h⟩ := foldl_changeTask_eq (redirect machine.tasks.size) join.branches
        (machine.spawn .draining .nobody).2
      refine (congrArg (fun m : Machine => machine.queue <+: m.queue ∧ m.timers = machine.timers
        ∧ m.world = machine.world) h).mpr ⟨List.prefix_append _ _, rfl, rfl⟩
  refine ⟨fun t ht => ?_, fun t ht => ?_, hrest.1, hrest.2.1, hrest.2.2⟩
  · rw [drain_task machine join ht]
    split
    · exact (redirect_state _ _).1
    · rfl
  · rw [drain_task machine join ht]
    split
    · exact (redirect_state _ _).2
    · rfl

/-- The children of a node that has its result report to a new task, which drains them, if the node
did not take in all of them; no other task hears of it. -/
structure Drains (join : Join) (before after : Machine) : Prop where
  all : join.taken = join.flags.length → after = before
  drainer : join.taken ≠ join.flags.length →
    after.task before.tasks.size = { state := .draining, queued := true }
  branch : join.taken ≠ join.flags.length → ∀ b ∈ join.branches, b < before.tasks.size →
    after.task b = redirect before.tasks.size (before.task b)
  other : ∀ t < before.tasks.size, t ∉ join.branches → after.task t = before.task t

theorem drains_drain (machine : Machine) (join : Join) :
    Drains join machine (machine.drain join) where
  all hall := by
    rw [drain, if_pos hall]
  drainer hleft := by
    have hspawned : (machine.spawn .draining .nobody).2.task machine.tasks.size
        = { state := .draining, queued := true } := by
      rw [task_spawn_eq, if_pos rfl]
    unfold drain
    rw [if_neg hleft]
    refine (task_foldl_changeTask (redirect_redirect machine.tasks.size) _ join.branches
      (machine.spawn .draining .nobody).2).trans ?_
    rw [hspawned]
    split
    · rfl
    · rfl
  branch hleft b hb hlt := by
    rw [drain_task machine join hlt, if_pos ⟨hb, hleft⟩]
  other t hlt ht := by
    rw [drain_task machine join hlt, if_neg fun h => ht h.1]

/-- To get a task its next turn changes at most whether it is in the queue. -/
theorem tasks_wake (machine : Machine) (id : TaskId) :
    (machine.wake id).tasks = machine.tasks
      ∨ (machine.wake id).tasks
        = (machine.changeTask id fun task => { task with queued := true }).tasks := by
  unfold wake
  simp only []
  split
  · exact .inl rfl
  · split
    · exact .inl rfl
    · exact .inr rfl

theorem size_wake (machine : Machine) (id : TaskId) :
    (machine.wake id).tasks.size = machine.tasks.size := by
  rcases machine.tasks_wake id with h | h
  · rw [h]
  · rw [h, changeTask, Array.size_modify]

theorem task_wake_of_ne (machine : Machine) {id t : TaskId} (h : id ≠ t) :
    (machine.wake id).task t = machine.task t := by
  rcases machine.tasks_wake id with hsame | hqueued
  · rw [task, hsame, task]
  · rw [task, hqueued, ← task, task_changeTask, if_neg fun heq => h heq.1]

theorem state_wake (machine : Machine) (id t : TaskId) :
    ((machine.wake id).task t).state = (machine.task t).state := by
  rcases machine.tasks_wake id with hsame | hqueued
  · rw [task, hsame, ← task]
  · rw [task, hqueued, ← task, task_changeTask]
    split <;> rfl

theorem listener_wake (machine : Machine) (id t : TaskId) :
    ((machine.wake id).task t).listener = (machine.task t).listener := by
  rcases machine.tasks_wake id with hsame | hqueued
  · rw [task, hsame, ← task]
  · rw [task, hqueued, ← task, task_changeTask]
    split <;> rfl

theorem state_setState (machine : Machine) {id : TaskId} (hid : id < machine.tasks.size)
    (state : TaskState) : ((machine.setState id state).task id).state = state := by
  rw [setState, task_changeTask, if_pos ⟨rfl, hid⟩]

theorem lt_size_of_joining {machine : Machine} {id : TaskId} {join : Join}
    (h : (machine.task id).state = .joining join) : id < machine.tasks.size := by
  by_contra hlt
  have : machine.task id = default := by simp [task, Array.getD_eq_getD_getElem?, hlt]
  rw [this] at h
  cases h

theorem state_carryOut_parallel (machine : Machine) {id : TaskId} (hid : id < machine.tasks.size)
    (policy : Policy) (input : Value) (children : List (Bool × Process))
    (next : Outcome → Process) :
    ((machine.carryOut id (.parallel policy input children next)).task id).state
      = .joining (.start policy input (children.map (·.1))
          (List.range' machine.tasks.size children.length) next) := by
  rw [carryOut, spawnBranches_eq]
  simp only []
  rw [state_wake, state_setState]
  · rfl
  · simp only [Array.size_append]
    exact Nat.lt_add_right _ hid

theorem size_carryOut_parallel (machine : Machine) (id : TaskId) (policy : Policy) (input : Value)
    (children : List (Bool × Process)) (next : Outcome → Process) :
    (machine.carryOut id (.parallel policy input children next)).tasks.size
      = machine.tasks.size + children.length := by
  rw [carryOut, spawnBranches_eq]
  simp only []
  rw [size_wake, setState, changeTask]
  simp

/-- The task of a child, which is ready to run it and reports to the node. -/
theorem task_carryOut_parallel (machine : Machine) {id : TaskId} (hid : id < machine.tasks.size)
    (policy : Policy) (input : Value) {children : List (Bool × Process)}
    (next : Outcome → Process) {i : Nat} {child : Bool × Process} (hi : children[i]? = some child) :
    (machine.carryOut id (.parallel policy input children next)).task (machine.tasks.size + i)
      = branch id i child.2 := by
  have hne : id ≠ machine.tasks.size + i := (Nat.lt_add_right i hid).ne
  rw [carryOut, spawnBranches_eq]
  simp only []
  rw [task_wake_of_ne _ hne, setState, task_changeTask, if_neg fun h => hne h.1]
  rw [task, Array.getD_eq_getD_getElem?, Array.getElem?_append_right (Nat.le_add_right _ _),
    Nat.add_sub_cancel_left, List.getElem?_toArray, List.getElem?_mapIdx, hi, Nat.zero_add]
  rfl

/-- Every one of the new tasks is a child's. -/
theorem exists_task_carryOut_parallel (machine : Machine) {id : TaskId}
    (hid : id < machine.tasks.size) (policy : Policy) (input : Value)
    {children : List (Bool × Process)} (next : Outcome → Process) {b : TaskId}
    (hb : b ∈ List.range' machine.tasks.size children.length) :
    ∃ i child, children[i]? = some child
      ∧ (machine.carryOut id (.parallel policy input children next)).task b
        = branch id i child.2 := by
  obtain ⟨i, hi, rfl⟩ := List.mem_range'.1 hb
  have hchild : children[i]? = some children[i] := List.getElem?_eq_getElem hi
  rw [Nat.one_mul]
  exact ⟨i, children[i], hchild, machine.task_carryOut_parallel hid policy input next hchild⟩

theorem state_arrive {machine : Machine} {id : TaskId} {join : Join}
    (h : (machine.task id).state = .joining join) (i : Nat) (o : Outcome) :
    ((machine.arrive id i o).task id).state
      = .joining { join with arrived := join.arrived ++ [(i, o)] } := by
  unfold arrive
  rw [h]
  simp only []
  rw [state_wake, state_setState _ (lt_size_of_joining h)]

/-- A node's turn takes in what arrived; if that is enough, the node goes on with its result. -/
theorem turn_of_joining {machine : Machine} {id : TaskId} {join : Join}
    (h : (machine.task id).state = .joining join) :
    machine.turn id = match join.take join.arrived with
      | (join, none) =>
        (machine.changeTask id fun task => { task with queued := false }).setState id
          (.joining join)
      | (join, some outcome) =>
        carryOut id (join.next outcome)
          ((machine.changeTask id fun task => { task with queued := false }).drain join) := by
  have hstate : ((machine.changeTask id fun task => { task with queued := false }).task id).state
      = .joining join := by
    rw [task_changeTask, if_pos ⟨rfl, lt_size_of_joining h⟩]
    exact h
  unfold turn
  rcases htake : join.take join.arrived with ⟨later, _ | outcome⟩ <;> simp only [hstate, htake]

/-- What can happen while a parallel node waits: children come in, in an order; the node has turns
that do not end its wait; and other things happen that leave its task alone. -/
inductive Waiting (id : TaskId) (outcome : Nat → Outcome) (start : Machine) :
    List Nat → Machine → Prop where
  | start : Waiting id outcome start [] start
  | arrive {came : List Nat} {machine : Machine} (i : Nat) :
    Waiting id outcome start came machine →
    Waiting id outcome start (came ++ [i]) (machine.arrive id i (outcome i))
  | turn {came : List Nat} {machine : Machine} {join join' : Join} :
    Waiting id outcome start came machine → (machine.task id).state = .joining join →
    join.take join.arrived = (join', none) → Waiting id outcome start came (machine.turn id)
  | other {came : List Nat} {machine machine' : Machine} :
    Waiting id outcome start came machine →
    (machine'.task id).state = (machine.task id).state → Waiting id outcome start came machine'

/-- A node that waits has taken in the first of those that came, and the others have arrived. -/
theorem Waiting.joining {id : TaskId} {outcome : Nat → Outcome} {start : Machine} {join : Join}
    {order : List Nat} (hstart : (start.task id).state = .joining join)
    (harr : join.arrived = []) (htaken : join.taken = 0)
    (hwaits : join.Waits (completionsOf join.flags outcome order))
    {came : List Nat} {machine : Machine} (h : Waiting id outcome start came machine) :
    came <+: order → ∃ t k, k ≤ came.length
      ∧ (machine.task id).state = .joining { join with
        tally := t, taken := k, arrived := arrivals outcome (came.drop k) }
      ∧ Join.Waits (completionsOf join.flags outcome order) { join with
        tally := t, taken := k, arrived := arrivals outcome (came.drop k) } := by
  induction h with
  | start =>
    intro _
    refine ⟨join.tally, 0, le_rfl, ?_, ?_⟩
    · rw [hstart, ← htaken]
      simp [arrivals, ← harr]
    · exact ⟨hwaits.flags, htaken ▸ hwaits.after, htaken ▸ hwaits.lt, htaken ▸ hwaits.before⟩
  | @arrive came machine i _ ih =>
    intro hpre
    obtain ⟨t, k, hk, hstate, hw⟩ := ih ((List.prefix_append _ _).trans hpre)
    refine ⟨t, k, hk.trans (by simp), ?_, hw.flags, hw.after, hw.lt, hw.before⟩
    rw [state_arrive hstate]
    simp [arrivals, List.drop_append_of_le_length hk]
  | @turn came machine join₁ join₂ _ hjoin htake ih =>
    intro hpre
    obtain ⟨t, k, hk, hstate, hw⟩ := ih hpre
    have hcame : k + (arrivals outcome (came.drop k)).length = came.length := by
      simp only [arrivals, List.length_map, List.length_drop]
      omega
    have hj : join₁ = { join with
        tally := t, taken := k, arrived := arrivals outcome (came.drop k) } := by
      rw [hjoin] at hstate
      exact TaskState.joining.inj hstate
    have hlt := lt_size_of_joining hjoin
    rw [turn_of_joining hjoin, htake]
    rw [hj] at htake
    rcases Join.exists_take_eq _ _ hw (map_arrivals_drop hpre hk join.flags outcome) with
      ⟨t', heq, hw'⟩ | ⟨t', m, rest, heq, -⟩
    · simp only [hcame] at heq hw'
      rw [htake, Prod.mk.injEq] at heq
      refine ⟨t', came.length, le_rfl, ?_, ?_⟩
      · simp only []
        rw [state_setState _ (by simpa [changeTask] using hlt), heq.1]
        simp [arrivals]
      · exact ⟨hw'.flags, hw'.after, hw'.lt, hw'.before⟩
    · rw [htake, Prod.mk.injEq] at heq
      cases heq.2
  | other _ hsame ih =>
    intro hpre
    rw [hsame]
    exact ih hpre

/-- The next turn of a task ends its wait for its children, of which it has then taken in so many,
and it goes on with their outcome. -/
def Returns (machine : Machine) (id : TaskId) (taken : Nat) (next : Outcome → Process)
    (o : Outcome) : Prop :=
  ∃ join, join.taken = taken ∧ machine.turn id = carryOut id (next o)
    ((machine.changeTask id fun task => { task with queued := false }).drain join)

/-- A task returns, and of its children's tasks it leaves those that it has not taken in to a task
that drains them. -/
def ReturnsLeaving (machine : Machine) (id : TaskId) (taken : Nat) (branches : List TaskId)
    (next : Outcome → Process) (o : Outcome) : Prop :=
  ∃ join, join.taken = taken ∧ join.branches = branches ∧ join.flags.length = branches.length
    ∧ machine.turn id = carryOut id (next o)
      ((machine.changeTask id fun task => { task with queued := false }).drain join)

theorem ReturnsLeaving.returns {machine : Machine} {id : TaskId} {taken : Nat}
    {branches : List TaskId} {next : Outcome → Process} {o : Outcome}
    (h : machine.ReturnsLeaving id taken branches next o) : machine.Returns id taken next o := by
  obtain ⟨join, htaken, -, -, hturn⟩ := h
  exact ⟨join, htaken, hturn⟩

/-- A node on a machine returns as `parallel` does, in the first turn it has when as many
completions have come in. -/
theorem Waiting.turn_returns {policy : Policy} {input : Value} {children : List (Bool × Process)}
    {next : Outcome → Process} {outcome : Nat → Outcome} {order came : List Nat} {id : TaskId}
    {start machine : Machine} {m : Nat} (hne : children ≠ [])
    (horder : order.Perm (List.range children.length)) (hid : id < start.tasks.size)
    (hm : policy.ReturnsAfter (completionsOf (children.map (·.1)) outcome order) m)
    (hpre : came <+: order)
    (h : (start.carryOut id (.parallel policy input children next)).Waiting id outcome came
      machine) :
    (came.length < m → ∃ join, ((machine.turn id).task id).state = .joining join)
      ∧ (m ≤ came.length →
        machine.ReturnsLeaving id m (List.range' start.tasks.size children.length) next
          (parallel policy input (completionsOf (children.map (·.1)) outcome order)).1) := by
  have hlen : (children.map (·.1)).length = children.length := List.length_map _
  have hne' : children.map (·.1) ≠ [] := by simpa using hne
  rw [← hlen] at horder
  have hstart := state_carryOut_parallel start hid policy input children next
  have hwaits : (Join.start policy input _ (List.range' start.tasks.size children.length)
      next).Waits _ := Join.start_waits horder hne' outcome input _ next
  obtain ⟨t, k, hk, hstate, hw⟩ := h.joining hstart rfl rfl hwaits hpre
  have hcame : k + (arrivals outcome (came.drop k)).length = came.length := by
    simp only [arrivals, List.length_map, List.length_drop]
    omega
  have hlt := lt_size_of_joining hstate
  rcases Join.exists_take_eq _ _ hw (map_arrivals_drop hpre hk _ outcome) with
    ⟨t', heq, hw'⟩ | ⟨t', m', rest, heq, hle, hafter, hm'⟩
  · simp only [hcame] at heq hw'
    have hlt' : came.length < m := by
      by_contra hle
      rcases hm.1 with hall | hen
      · exact absurd (hw'.lt.trans_le hall) (by omega)
      · exact hw'.before m (by simpa using hle) hen
    refine ⟨fun _ => ?_, fun hle => absurd hle (by omega)⟩
    rw [turn_of_joining hstate]
    simp only [] at heq ⊢
    rw [heq]
    exact ⟨_, state_setState _ (by simpa [changeTask] using hlt) _⟩
  · obtain rfl := hm.unique hm'
    simp only [hcame] at hle
    refine ⟨fun hlt => absurd hle (by omega), fun _ => ?_⟩
    have hcompletions : completionsOf (children.map (·.1)) outcome order ≠ [] := by
      refine List.ne_nil_of_length_pos ?_
      rw [length_completionsOf, horder.length_eq, List.length_range]
      exact List.length_pos_iff.2 hne'
    have hgives : policy.Gives _ _ := parallel_gives input hcompletions
    have hgives' := hafter.result_of_returns hm' hcompletions input
    rw [ReturnsLeaving, turn_of_joining hstate, hgives.unique hgives']
    simp only [] at heq ⊢
    rw [heq]
    refine ⟨_, rfl, rfl, ?_, rfl⟩
    rw [List.length_range']
    exact hlen

end Machine

namespace Process

/-- Runs children one after the other, each in the world that the one before left. -/
def inTurn : List (Bool × Process) → World → List (Bool × InPlace)
  | [], _ => []
  | (waitForMe, child) :: rest, world =>
    (waitForMe, inPlace child world) :: inTurn rest (inPlace child world).world

/-- The completions of children that ran. -/
def completions (runs : List (Bool × InPlace)) : List (Bool × Outcome) :=
  runs.map fun run => (run.1, run.2.outcome)

theorem map_snd_completions (runs : List (Bool × InPlace)) :
    (completions runs).map Prod.snd = runs.map fun run => run.2.outcome := by
  rw [completions, List.map_map]
  rfl

/-- The run of a child that is left over. -/
def leftover (child : Bool × Process) : Leftover := fun world => (inPlace child.2 world).drain

/-- The world after some runs. -/
def worldAfter (world : World) (runs : List (Bool × InPlace)) : World :=
  (runs.getLast?.map fun run => run.2.world).getD world

theorem worldAfter_cons (world : World) (run : Bool × InPlace) (runs : List (Bool × InPlace)) :
    worldAfter world (run :: runs) = worldAfter run.2.world runs := by
  unfold worldAfter
  rcases runs with _ | ⟨r, rs⟩
  · rfl
  · rw [List.getLast?_cons_cons]
    rcases h : (r :: rs).getLast? with _ | last
    · simp at h
    · rfl

theorem length_inTurn : ∀ (children : List (Bool × Process)) (world : World),
    (inTurn children world).length = children.length
  | [], _ => rfl
  | (_, _) :: rest, _ => by rw [inTurn, List.length_cons, length_inTurn rest, List.length_cons]

theorem map_fst_inTurn : ∀ (children : List (Bool × Process)) (world : World),
    (inTurn children world).map (·.1) = children.map (·.1)
  | [], _ => rfl
  | (_, _) :: rest, _ => by rw [inTurn, List.map_cons, map_fst_inTurn rest, List.map_cons]

/-- Once a node need not wait any more, all its other children are left over. -/
theorem branchesInPlace_of_settled {policy : Policy} {tally : Tally} (total : Nat)
    (h : tally.settled policy = true) : ∀ (children : List (Bool × Process)) (world : World),
    branchesInPlace policy total tally children world = (tally, children.map leftover, world)
  | [], _ => rfl
  | (_, _) :: rest, world => by
    rw [branchesInPlace, if_pos h, branchesInPlace_of_settled total h rest]
    rfl

/-- In place a node runs its first children, and leaves the others over. -/
theorem exists_branchesInPlace_eq {policy : Policy} {all : List (Bool × Outcome)} :
    ∀ (children : List (Bool × Process)) (world : World) (k : Nat) (tally : Tally),
    completions (inTurn children world) = all.drop k → tally.After policy all k →
    (∀ j ≤ k, ¬policy.Enough all j) → k ≤ all.length →
    ∃ m t, t.After policy all (k + m) ∧ policy.ReturnsAfter all (k + m)
      ∧ branchesInPlace policy all.length tally children world
        = (t, ((inTurn children world).take m).flatMap (·.2.leftovers)
            ++ (children.drop m).map leftover,
          worldAfter world ((inTurn children world).take m))
  | [], world, k, tally, hall, h, hbefore, hk => by
    have hlen : all.length ≤ k := List.drop_eq_nil_iff.1 hall.symm
    exact ⟨0, tally, h, Policy.returnsAfter_of_before (.inl hlen)
      fun j hj => ⟨by omega, hbefore j (by omega)⟩, rfl⟩
  | (w, child) :: rest, world, k, tally, hall, h, hbefore, hk => by
    rw [inTurn, completions, List.map_cons] at hall
    obtain ⟨hget, hrest⟩ := getElem?_of_drop_eq_cons hall.symm
    have hlt : k < all.length := (List.getElem?_eq_some_iff.1 hget).1
    have h' := h.record hget
    have hns : tally.settled policy ≠ true := fun hs => hbefore k le_rfl (h.settled_iff.1 hs)
    rw [branchesInPlace, if_neg hns]
    by_cases hs : (tally.record policy all.length w (inPlace child world).outcome).settled
        policy = true
    · refine ⟨1, _, h', Policy.returnsAfter_of_before (.inr (h'.settled_iff.1 hs))
        fun j hj => ⟨by omega, hbefore j (by omega)⟩, ?_⟩
      simp only [branchesInPlace_of_settled all.length hs]
      simp [inTurn, worldAfter]
    · obtain ⟨m, t, hafter, hm, heq⟩ := exists_branchesInPlace_eq rest
        (inPlace child world).world (k + 1) _ hrest.symm h'
        (Policy.not_enough_succ hbefore fun hen => hs (h'.settled_iff.2 hen)) (by omega)
      rw [Nat.add_assoc, Nat.add_comm 1] at hafter hm
      refine ⟨m + 1, t, hafter, hm, ?_⟩
      simp only [heq]
      simp [inTurn, worldAfter_cons]

/-- A parallel node run in place returns after the first completions that are enough, each from
a child that ran once, and leaves the other children over. -/
theorem exists_inPlace_parallel (policy : Policy) (input : Value)
    (children : List (Bool × Process)) (next : Outcome → Process) (world : World) :
    ∃ (m : Nat) (t : Tally), t.After policy (completions (inTurn children world)) m
      ∧ policy.ReturnsAfter (completions (inTurn children world)) m
      ∧ inPlace (.parallel policy input children next) world
        = (inPlace (next (t.result input))
            (worldAfter world ((inTurn children world).take m))).prepend
          (((inTurn children world).take m).flatMap (·.2.leftovers)
            ++ (children.drop m).map leftover) := by
  have hlen : (completions (inTurn children world)).length = children.length := by
    rw [completions, List.length_map, length_inTurn]
  have hcount : (completions (inTurn children world)).countP (·.1)
      = children.countP (·.1) := by
    have h : ((completions (inTurn children world)).map (·.1)).countP (·)
        = (children.map (·.1)).countP (·) := by
      rw [← map_fst_inTurn children world, completions, List.map_map]
      rfl
    rwa [List.countP_map, List.countP_map] at h
  have hstart : Tally.After policy (completions (inTurn children world)) 0
      { waitingOn := (completions (inTurn children world)).countP (·.1) } := .start
  rw [hcount] at hstart
  have hall : completions (inTurn children world)
      = (completions (inTurn children world)).drop 0 := rfl
  obtain ⟨m, t, hafter, hm, heq⟩ := exists_branchesInPlace_eq children world 0 _ hall hstart
    (fun j hj => by
      obtain rfl : j = 0 := by omega
      exact Policy.not_enough_zero) (Nat.zero_le _)
  rw [Nat.zero_add] at hafter hm
  refine ⟨m, t, hafter, hm, ?_⟩
  rw [hlen] at heq
  simp only [inPlace, heq]

end Process

end BehaviorTree
