import BehaviorTree.Proofs.Interleaving
import Mathlib.Data.Nat.Pairing

/-!
# Fair schedules

A task that is ready waits for nothing but its turn, and one that sleeps for nothing but to be
woken (`Core.Goes.eq_of_idle`). In a schedule in which every task has its turn and is woken again
and again, work in the background comes to the use of its completion handle
(`Core.Scheduled.exists_released`), and a run comes to its end (`Core.Scheduled.exists_ended`).
-/

namespace BehaviorTree

/-- Every task has its turn and is woken again and again. -/
def FairSchedule (schedule : Nat → Move) : Prop :=
  ∀ id t, (∃ u ≥ t, schedule u = .step id) ∧ ∃ u ≥ t, schedule u = .rouse id

/-- A schedule that comes back to every task. -/
def comeBack (t : Nat) : Move :=
  if t.unpair.2 % 2 = 0 then .step t.unpair.1 else .rouse t.unpair.1

theorem comeBack_fair : FairSchedule comeBack := by
  refine fun id t => ⟨⟨Nat.pair id (2 * t), ?_, ?_⟩, Nat.pair id (2 * t + 1), ?_, ?_⟩
  · have := Nat.right_le_pair id (2 * t)
    omega
  · rw [comeBack, Nat.unpair_pair, if_pos (Nat.mul_mod_right 2 t)]
  · have := Nat.right_le_pair id (2 * t + 1)
    omega
  · rw [comeBack, Nat.unpair_pair, if_neg (by omega)]

/-- The state of a task after its turn. -/
def Process.moved (store : Store) : Process → TaskState
  | done outcome => .ended outcome
  | ask scope request next => .ready (next (store.ask scope request).1)
  | emit _ next => .ready (next ())
  | sleep _ next => .asleep next
  | start _ next => .ready (next ())
  | await _ next => .awaiting next
  | complete _ next => .ready (next ())
  | parallel _ _ _ _ => .draining

/-- Whether a process, with its next move, only changes its own task. -/
def Process.keepsToItself : Process → Bool
  | ask _ _ _ | emit _ _ | sleep _ _ => true
  | _ => false

/-- What a process makes of a completion handle with its next move, if it does away with it. -/
def Process.lets : Process → Handle
  | done _ => some none
  | complete used _ => some used
  | _ => none

namespace Core

variable {store : Store} {runs : List Process} {size size' : Nat}
  {said puts : List (TaskId × Event)} {c c' : Core} {m : Move} {id : TaskId}

theorem becomes_self (c : Core) (id : TaskId) (state : TaskState) :
    c.becomes id state id = (state, (c id).2) :=
  c.put_self ..

theorem becomes_of_ne (c : Core) {id t : TaskId} (h : t ≠ id) (state : TaskState) :
    c.becomes id state t = c t :=
  c.put_of_ne h ..

/-- Only who waits hears of a completion handle. -/
theorem deliver_of_not_awaiting {t : TaskId} (h : ∀ next, (c t).1 ≠ .awaiting next)
    (waiter : TaskId) (used : Option Outcome) : c.deliver waiter used t = c t := by
  unfold deliver
  cases hstate : (c waiter).1 with
  | awaiting next => exact c.becomes_of_ne (fun heq : t = waiter => h next (heq ▸ hstate)) _
  | _ => rfl

/-- Nobody but the waiter hears of a completion handle. -/
theorem deliver_of_ne {t waiter : TaskId} (h : t ≠ waiter) (used : Option Outcome) :
    c.deliver waiter used t = c t := by
  unfold deliver
  cases (c waiter).1 with
  | awaiting next => exact c.becomes_of_ne h _
  | _ => rfl

/-- A task that uses its completion handle leaves every other task alone that does not wait for
it. -/
theorem complete_of_ne {t : TaskId} (hne : t ≠ id) (h : (c id).2 ≠ .handle t)
    (used : Option Outcome) : c.complete id used t = c t := by
  unfold complete
  cases hl : (c id).2 with
  | handle waiter =>
    exact (deliver_of_ne (fun heq : t = waiter => h (heq ▸ hl)) used).trans (c.put_of_ne hne ..)
  | _ => rfl

/-- So does a task that ends. -/
theorem finish_of_ne {t : TaskId} (hne : t ≠ id) (h : (c id).2 ≠ .handle t) (outcome : Outcome) :
    c.finish id outcome t = c t := by
  unfold finish
  cases hl : (c id).2 with
  | handle waiter =>
    exact (deliver_of_ne (fun heq : t = waiter => h (heq ▸ hl)) none).trans (c.becomes_of_ne hne _)
  | _ => exact c.becomes_of_ne hne _

theorem finish_of_not_awaiting {t : TaskId} (hne : t ≠ id) (h : ∀ next, (c t).1 ≠ .awaiting next)
    (outcome : Outcome) : c.finish id outcome t = c t := by
  have hsame := c.becomes_of_ne hne (.ended outcome)
  unfold finish
  cases (c id).2 with
  | handle waiter => exact (deliver_of_not_awaiting (hsame ▸ h) waiter none).trans hsame
  | _ => exact hsame

theorem complete_of_not_awaiting {t : TaskId} (hne : t ≠ id)
    (h : ∀ next, (c t).1 ≠ .awaiting next) (used : Option Outcome) :
    c.complete id used t = c t := by
  have hsame := c.put_of_ne hne (c id).1 .nobody
  unfold complete
  cases (c id).2 with
  | handle waiter => exact (deliver_of_not_awaiting (hsame ▸ h) waiter used).trans hsame
  | _ => rfl

namespace Goes

/-- A task that neither has its turn nor is woken stays as it is, unless it waits for the one whose
turn it is. -/
theorem eq_of_idle (hgoes : c.Goes store size m puts size' c') {t : TaskId} (ht : t ≠ size)
    (hstep : m = .step t → ∀ process, (c t).1 ≠ .ready process)
    (hrouse : m = .rouse t → ∀ next, (c t).1 ≠ .asleep next)
    (hawaiting : ∀ next, (c t).1 = .awaiting next →
      ∀ id process, m = .step id → (c id).1 = .ready process → (c id).2 ≠ .handle t) :
    c' t = c t := by
  have hne : ∀ {id process}, (c id).1 = .ready process → m = .step id → t ≠ id :=
    fun hstate hm heq => hstep (heq ▸ hm) _ (heq ▸ hstate)
  cases hgoes with
  | wait | stay | prefer => rfl
  | @done id outcome hstate =>
    by_cases hwaits : ∃ next, (c t).1 = .awaiting next
    · obtain ⟨next, hwaits⟩ := hwaits
      exact finish_of_ne (hne hstate rfl) (hawaiting next hwaits id _ rfl hstate) outcome
    · exact finish_of_not_awaiting (hne hstate rfl) (fun next heq => hwaits ⟨next, heq⟩) outcome
  | ask hstate | emit hstate | sleep hstate => exact c.becomes_of_ne (hne hstate rfl) _
  | start hstate | await hstate =>
    rw [becomes_of_ne _ (hne hstate rfl), c.put_of_ne ht]
  | @complete id used next hstate =>
    rw [becomes_of_ne _ (hne hstate rfl)]
    by_cases hwaits : ∃ next, (c t).1 = .awaiting next
    · obtain ⟨next, hwaits⟩ := hwaits
      exact complete_of_ne (hne hstate rfl) (hawaiting next hwaits id _ rfl hstate) used
    · exact complete_of_not_awaiting (hne hstate rfl) (fun next heq => hwaits ⟨next, heq⟩) used
  | @rouse id next hstate =>
    exact c.becomes_of_ne (fun heq => hrouse (by rw [heq]) next (by rw [heq, hstate])) _

/-- A task moves in its turn. -/
theorem moved (hgoes : c.Goes store size (.step id) puts size' c') {process : Process}
    (hstate : (c id).1 = .ready process) : (c' id).1 = process.moved store := by
  cases hgoes with
  | wait h => exact absurd hstate (h process)
  | @done id outcome h =>
    obtain rfl := TaskState.ready.inj (hstate.symm.trans h)
    have hself := c.becomes_self id (.ended outcome)
    have hended : ∀ next, (c.becomes id (.ended outcome) id).1 ≠ .awaiting next := by
      rw [hself]
      nofun
    unfold finish
    cases (c id).2 with
    | handle waiter =>
      exact congrArg Prod.fst ((deliver_of_not_awaiting hended waiter none).trans hself)
    | _ => exact congrArg Prod.fst hself
  | ask h | emit h | sleep h | start h | await h | complete h =>
    obtain rfl := TaskState.ready.inj (hstate.symm.trans h)
    rw [becomes_self]
    rfl

theorem eq_becomes (hgoes : c.Goes store size (.step id) puts size' c') {process : Process}
    (hstate : (c id).1 = .ready process) (h : process.keepsToItself) :
    c' = c.becomes id (process.moved store) := by
  cases hgoes with
  | wait hwait => exact absurd hstate (hwait process)
  | done h' | start h' | await h' | complete h' =>
    obtain rfl := TaskState.ready.inj (hstate.symm.trans h')
    exact nomatch h
  | ask h' | emit h' | sleep h' =>
    obtain rfl := TaskState.ready.inj (hstate.symm.trans h')
    rfl

/-- A task that does away with its completion handle lets the one that waits for it go on. -/
theorem delivers (hgoes : c.Goes store size (.step id) puts size' c') {process : Process}
    (hstate : (c id).1 = .ready process) {used : Option Outcome} (hused : process.lets = some used)
    {i : TaskId} {next : Option Outcome → Process} (hlistener : (c id).2 = .handle i)
    (hawaiting : (c i).1 = .awaiting next) : (c' i).1 = .ready (next used) := by
  have hne : i ≠ id := fun heq => nomatch (heq ▸ hawaiting).symm.trans hstate
  cases hgoes with
  | wait hwait => exact absurd hstate (hwait process)
  | ask h' | emit h' | sleep h' | start h' | await h' =>
    obtain rfl := TaskState.ready.inj (hstate.symm.trans h')
    exact nomatch hused
  | done h' =>
    obtain rfl := TaskState.ready.inj (hstate.symm.trans h')
    obtain rfl := Option.some.inj hused
    simp only [Core.finish, deliver, hlistener, becomes_of_ne _ hne, hawaiting, becomes_self]
  | complete h' =>
    obtain rfl := TaskState.ready.inj (hstate.symm.trans h')
    obtain rfl := Option.some.inj hused
    simp only [Core.complete, deliver, hlistener, c.put_of_ne hne, hawaiting, becomes_of_ne _ hne,
      becomes_self]

/-- A task that starts work in the background and waits for it. -/
theorem awaits (hgoes : c.Goes store size (.step id) puts size' c') {work : Process}
    {next : Option Outcome → Process} (hstate : (c id).1 = .ready (.await work next))
    (hid : id ≠ size) : (c' id).1 = .awaiting next ∧ c' size = (.ready work, .handle id) := by
  cases hgoes with
  | wait hwait => exact absurd hstate (hwait _)
  | done h' | complete h' | ask h' | emit h' | sleep h' | start h' =>
    exact nomatch hstate.symm.trans h'
  | await h' =>
    cases hstate.symm.trans h'
    rw [becomes_self, becomes_of_ne _ hid.symm, put_self]
    exact ⟨rfl, rfl⟩

theorem rouse_eq (hgoes : c.Goes store size (.rouse id) puts size' c') {next : Unit → Process}
    (hstate : (c id).1 = .asleep next) : c' id = (.ready (next ()), (c id).2) := by
  cases hgoes with
  | rouse h =>
    obtain rfl := TaskState.asleep.inj (hstate.symm.trans h)
    exact c.becomes_self id _
  | stay h => exact absurd hstate (h next)

end Goes

/-- Tasks that stay on their course while a schedule is followed. -/
structure Scheduled (store : Store) (runs : List Process) (schedule : Nat → Move)
    (c : Nat → Core) (size : Nat → Nat) (said : Nat → List (TaskId × Event)) : Prop where
  sound : ∀ t, Sound store runs (size t) (said t) (c t)
  goes : ∀ t, ∃ puts, (c t).Goes store (size t) (schedule t) puts (size (t + 1)) (c (t + 1))

namespace Scheduled

variable {schedule : Nat → Move} {c : Nat → Core} {size : Nat → Nat}
  {said : Nat → List (TaskId × Event)}

/-- A state of affairs that only some move puts an end to lasts until that move. -/
theorem exists_when {Q : Nat → Prop} {m : Move} {t : Nat} (h : Q t)
    (hstay : ∀ u, Q u → schedule u ≠ m → Q (u + 1)) (hcomes : ∃ u ≥ t, schedule u = m) :
    ∃ u ≥ t, schedule u = m ∧ Q u := by
  obtain ⟨v, hle, hv⟩ := hcomes
  by_contra hnever
  have hlasts : ∀ u ≥ t, Q u := fun u hu => by
    induction u, hu using Nat.le_induction with
    | base => exact h
    | succ u hu ih => exact hstay u ih fun heq => hnever ⟨u, hu, heq, ih⟩
  exact hnever ⟨v, hle, hv, hlasts v hle⟩

/-- Who waits for a task goes on only in its turn. -/
theorem waiter_succ (h : Scheduled store runs schedule c size said) {i : TaskId} {t : Nat}
    {next : Option Outcome → Process} (hholds : (c t).Holds i id)
    (hawaiting : (c t i).1 = .awaiting next)
    (hstep : schedule t = .step id → ∀ process, (c t id).1 ≠ .ready process) :
    c (t + 1) i = c t i := by
  obtain ⟨puts, hgoes⟩ := h.goes t
  have hi : i ≠ size t := (h.sound t).ne_size (by rw [hawaiting]; nofun)
  refine hgoes.eq_of_idle hi (fun _ _ heq => nomatch hawaiting.symm.trans heq)
    (fun _ _ heq => nomatch hawaiting.symm.trans heq) ?_
  intro _ _ other process hm hready hlistener
  have hlive : (c t other).1.isEnded = false := by rw [hready]; rfl
  obtain rfl : other = id := (h.sound t).unique i other id ⟨hlistener, hlive⟩ hholds
  exact hstep hm process hready

/-- What stays as it is while a task waits for its turn: the task, and who waits for it. -/
def Still (c : Nat → Core) (id : TaskId) (t u : Nat) : Prop :=
  c u id = c t id ∧ ∀ i next, (c t).Holds i id → (c t i).1 = .awaiting next → c u i = c t i

theorem still_succ (h : Scheduled store runs schedule c size said) {t u : Nat} {process : Process}
    (hhas : (c t id).1.Has process)
    (hstep : schedule u = .step id → ∀ process, (c t id).1 ≠ .ready process)
    (hrouse : schedule u = .rouse id → ∀ next, (c t id).1 ≠ .asleep next)
    (hstill : Still c id t u) : Still c id t (u + 1) := by
  obtain ⟨puts, hgoes⟩ := h.goes u
  obtain ⟨hsame, hwaiters⟩ := hstill
  have hid : id ≠ size u := (h.sound u).ne_size (hsame ▸ hhas.ne_draining)
  refine ⟨(hgoes.eq_of_idle hid (hsame ▸ hstep) (hsame ▸ hrouse) ?_).trans hsame,
    fun i next hholds hawaiting => ?_⟩
  · exact fun next heq => absurd (hsame ▸ heq) (hhas.ne_awaiting next)
  · have hwaiter := hwaiters i next hholds hawaiting
    exact (h.waiter_succ ⟨hsame ▸ hholds.1, hsame ▸ hholds.2⟩ (hwaiter ▸ hawaiting)
      (hsame ▸ hstep)).trans hwaiter

theorem exists_turn_of_ready (h : Scheduled store runs schedule c size said)
    (hfair : FairSchedule schedule) {t : Nat} {process : Process}
    (hstate : (c t id).1 = .ready process) :
    ∃ u ≥ t, schedule u = .step id ∧ Still c id t u := by
  have hhas : (c t id).1.Has process := Sound.has_of_ready hstate
  refine exists_when ⟨rfl, fun _ _ _ _ => rfl⟩ (fun u hstill hne => ?_) (hfair id t).1
  exact h.still_succ hhas (fun heq => absurd heq hne)
    (fun _ _ heq => nomatch hstate.symm.trans heq) hstill

/-- A task that has something left to do has its turn, and meanwhile nobody who waits for it goes
on. -/
theorem exists_turn (h : Scheduled store runs schedule c size said) (hfair : FairSchedule schedule)
    {t : Nat} {process : Process} (hhas : (c t id).1.Has process)
    (hlive : (c t id).1.isEnded = false) :
    ∃ u ≥ t, schedule u = .step id ∧ c u id = (.ready process, (c t id).2)
      ∧ ∀ i next, (c t).Holds i id → (c t i).1 = .awaiting next → c u i = c t i := by
  generalize hstate : (c t id).1 = state at hhas hlive
  cases hhas with
  | ready process =>
    obtain ⟨u, hu, hm, hsame, hwaiters⟩ := h.exists_turn_of_ready hfair hstate
    exact ⟨u, hu, hm, hsame.trans (Prod.ext hstate rfl), hwaiters⟩
  | asleep next =>
    have hasleep : (c t id).1.Has (next ()) := hstate ▸ .asleep next
    obtain ⟨u, hu, hm, hsame, hwaiters⟩ := exists_when (Q := Still c id t)
      ⟨rfl, fun _ _ _ _ => rfl⟩
      (fun u hstill hne => h.still_succ hasleep (fun _ _ heq => nomatch hstate.symm.trans heq)
        (fun heq => absurd heq hne) hstill) (hfair id t).2
    obtain ⟨puts, hgoes⟩ := h.goes u
    rw [hm] at hgoes
    have hwoken : c (u + 1) id = (.ready (next ()), (c t id).2) := by
      rw [hgoes.rouse_eq (hsame ▸ hstate), hsame]
    obtain ⟨v, hv, hm', hsame', hwaiters'⟩ :=
      h.exists_turn_of_ready hfair (congrArg Prod.fst hwoken)
    refine ⟨v, by omega, hm', hsame'.trans hwoken, fun i next' hholds hawaiting => ?_⟩
    have hwaiter : c (u + 1) i = c t i := by
      have hwaiter := hwaiters i next' hholds hawaiting
      exact (h.waiter_succ ⟨hsame ▸ hholds.1, hsame ▸ hholds.2⟩ (hwaiter ▸ hawaiting)
        (fun heq => nomatch hm.symm.trans heq)).trans hwaiter
    exact (hwaiters' i next' ⟨hwoken ▸ hholds.1, by rw [hwoken]; rfl⟩
      (hwaiter ▸ hawaiting)).trans hwaiter
  | ended outcome => exact nomatch hlive

section Released

variable {i : TaskId} {work : Process} {next : Option Outcome → Process} {t : Nat}

theorem exists_delivered (h : Scheduled store runs schedule c size said)
    (hfair : FairSchedule schedule) (hholds : (c t).Holds i id)
    (hawaiting : (c t i).1 = .awaiting next) (hhas : (c t id).1.Has work) {used : Option Outcome}
    (hused : work.lets = some used) : ∃ u ≥ t, (c u i).1 = .ready (next used) := by
  obtain ⟨u, hu, hm, hready, hwaiters⟩ := h.exists_turn hfair hhas hholds.2
  obtain ⟨puts, hgoes⟩ := h.goes u
  rw [hm] at hgoes
  refine ⟨u + 1, Nat.le_succ_of_le hu, hgoes.delivers (by rw [hready]) hused ?_
    (by rw [hwaiters i next hholds hawaiting, hawaiting])⟩
  rw [hready]
  exact hholds.1

theorem exists_kept (h : Scheduled store runs schedule c size said)
    (hfair : FairSchedule schedule) (hholds : (c t).Holds i id)
    (hawaiting : (c t i).1 = .awaiting next) (hhas : (c t id).1.Has work)
    (hkeeps : work.keepsToItself) {after : Process} (hafter : (work.moved store).Has after)
    (hlive : (work.moved store).isEnded = false) :
    ∃ u ≥ t, (c u).Holds i id ∧ (c u i).1 = .awaiting next ∧ (c u id).1.Has after := by
  obtain ⟨u, hu, hm, hready, hwaiters⟩ := h.exists_turn hfair hhas hholds.2
  obtain ⟨puts, hgoes⟩ := h.goes u
  rw [hm] at hgoes
  have hbecomes := hgoes.eq_becomes (by rw [hready]) hkeeps
  have hne : i ≠ id := fun heq => hhas.ne_awaiting next (heq ▸ hawaiting)
  have hself : c (u + 1) id = (work.moved store, .handle i) := by
    rw [hbecomes, becomes_self, hready, hholds.1]
  have hother : c (u + 1) i = c t i := by
    rw [hbecomes, becomes_of_ne _ hne, hwaiters i next hholds hawaiting]
  refine ⟨u + 1, Nat.le_succ_of_le hu, ⟨by rw [hself], ?_⟩, hother ▸ hawaiting, ?_⟩
  · rw [hself]
    exact hlive
  · rw [hself]
    exact hafter

end Released

/-- Work in the background comes to the use of its completion handle, and whoever waits goes on. -/
theorem exists_released (h : Scheduled store runs schedule c size said)
    (hfair : FairSchedule schedule) {i : TaskId} {next : Option Outcome → Process} {work : Process}
    (haside : work.Aside) : ∀ {t : Nat}, (c t).Holds i id → (c t i).1 = .awaiting next →
      (c t id).1.Has work → ∃ u ≥ t, (c u i).1 = .ready (next ((work.used store).getD none)) := by
  induction haside with
  | done outcome | complete used _ _ =>
    exact fun hholds hawaiting hhas => h.exists_delivered hfair hholds hawaiting hhas rfl
  | ask scope hread _ ih =>
    intro t hholds hawaiting hhas
    obtain ⟨u, hu, hholds', hawaiting', hhas'⟩ :=
      h.exists_kept hfair hholds hawaiting hhas rfl (.ready _) rfl
    obtain ⟨v, hv, hreleased⟩ := ih _ hholds' hawaiting' hhas'
    exact ⟨v, hu.trans hv, hreleased⟩
  | emit hevent _ ih =>
    intro t hholds hawaiting hhas
    obtain ⟨u, hu, hholds', hawaiting', hhas'⟩ :=
      h.exists_kept hfair hholds hawaiting hhas rfl (.ready _) rfl
    obtain ⟨v, hv, hreleased⟩ := ih hholds' hawaiting' hhas'
    exact ⟨v, hu.trans hv, hreleased⟩
  | sleep ms _ ih =>
    intro t hholds hawaiting hhas
    obtain ⟨u, hu, hholds', hawaiting', hhas'⟩ :=
      h.exists_kept hfair hholds hawaiting hhas rfl (.asleep _) rfl
    obtain ⟨v, hv, hreleased⟩ := ih hholds' hawaiting' hhas'
    exact ⟨v, hu.trans hv, hreleased⟩

/-- A run that only reads comes to its end, with the outcome of its course. -/
theorem exists_ended (h : Scheduled store runs schedule c size said) (hfair : FairSchedule schedule)
    {process : Process} (hreader : process.Reader) : ∀ {t : Nat}, (c t id).1.Has process →
      ∃ u ≥ t, (c u id).1 = .ended (process.course store).2 := by
  have hgoesOn : ∀ {process : Process} {t : Nat}, (c t id).1.Has process →
      (c t id).1.isEnded = false → ∃ u ≥ t, (c u id).1 = process.moved store := fun hhas hlive => by
    obtain ⟨u, hu, hm, hready, -⟩ := h.exists_turn hfair hhas hlive
    obtain ⟨puts, hgoes⟩ := h.goes u
    exact ⟨u + 1, Nat.le_succ_of_le hu, (hm ▸ hgoes).moved (by rw [hready])⟩
  have hlive : ∀ {process : Process} {t : Nat}, (c t id).1.Has process →
      (∀ outcome, process ≠ .done outcome) → (c t id).1.isEnded = false := fun hhas hne => by
    rcases hhas.live_or_ended with hlive | ⟨outcome, -, heq⟩
    · exact hlive
    · exact absurd heq (hne outcome)
  induction hreader with
  | done outcome =>
    intro t hhas
    rcases hhas.live_or_ended with hlive | ⟨other, hended, heq⟩
    · exact hgoesOn hhas hlive
    · cases heq
      exact ⟨t, Nat.le_refl t, hended⟩
  | ask scope hread _ ih =>
    intro t hhas
    obtain ⟨u, hu, hmoved⟩ := hgoesOn hhas (hlive hhas nofun)
    obtain ⟨v, hv, hended⟩ := ih _ (Sound.has_of_ready hmoved)
    exact ⟨v, hu.trans hv, hended⟩
  | emit event _ ih | start hwork _ ih =>
    intro t hhas
    obtain ⟨u, hu, hmoved⟩ := hgoesOn hhas (hlive hhas nofun)
    obtain ⟨v, hv, hended⟩ := ih (Sound.has_of_ready hmoved)
    exact ⟨v, hu.trans hv, hended⟩
  | @sleep ms next _ ih =>
    intro t hhas
    obtain ⟨u, hu, hmoved⟩ := hgoesOn hhas (hlive hhas nofun)
    have hhas' : (c u id).1.Has (next ()) := hmoved ▸ .asleep next
    obtain ⟨v, hv, hended⟩ := ih hhas'
    exact ⟨v, hu.trans hv, hended⟩
  | @await work next hwork _ ih =>
    intro t hhas
    obtain ⟨u, hu, hm, hready, -⟩ := h.exists_turn hfair hhas (hlive hhas nofun)
    obtain ⟨puts, hgoes⟩ := h.goes u
    have hid : id ≠ size u := (h.sound u).ne_size (by rw [hready]; nofun)
    obtain ⟨hawaiting, hspawned⟩ := (hm ▸ hgoes).awaits (by rw [hready]) hid
    obtain ⟨v, hv, hreleased⟩ := h.exists_released hfair hwork
      (t := u + 1) ⟨by rw [hspawned], by rw [hspawned]; rfl⟩ hawaiting
      (by rw [hspawned]; exact .ready work)
    obtain ⟨w, hw, hended⟩ := ih _ (Sound.has_of_ready hreleased)
    exact ⟨w, by omega, hended⟩

/-- A task that has ended stays so. -/
theorem ended_of_le (h : Scheduled store runs schedule c size said) {outcome : Outcome} {t u : Nat}
    (hle : t ≤ u) (hended : (c t id).1 = .ended outcome) : (c u id).1 = .ended outcome := by
  induction u, hle using Nat.le_induction with
  | base => exact hended
  | succ u _ ih =>
    obtain ⟨puts, hgoes⟩ := h.goes u
    have hid : id ≠ size u := (h.sound u).ne_size (by rw [ih]; nofun)
    rw [hgoes.eq_of_idle hid (fun _ _ heq => nomatch ih.symm.trans heq)
      (fun _ _ heq => nomatch ih.symm.trans heq) (fun _ heq => nomatch ih.symm.trans heq), ih]

/-- In a fair schedule all runs come to their end. -/
theorem exists_all_ended (h : Scheduled store runs schedule c size said)
    (hfair : FairSchedule schedule) :
    ∃ t, ∀ i process, runs[i]? = some process →
      (c t i).1 = .ended (process.course store).2 := by
  have hone : ∀ i process, runs[i]? = some process →
      ∃ t, (c t i).1 = .ended (process.course store).2 := fun i process hi => by
    obtain ⟨-, rest, hleft, hreader, -, houtcome⟩ := (h.sound 0).run i process hi
    rw [houtcome]
    cases hleft with
    | has hhas =>
      obtain ⟨t, -, hended⟩ := h.exists_ended hfair hreader hhas
      exact ⟨t, hended⟩
    | awaits hawaiting hholds hwork =>
      cases hreader with
      | await haside hnext =>
        obtain ⟨u, -, hreleased⟩ := h.exists_released hfair haside hholds hawaiting hwork
        obtain ⟨t, -, hended⟩ := h.exists_ended hfair (hnext _) (Sound.has_of_ready hreleased)
        exact ⟨t, hended⟩
  have hfirst : ∀ n, ∃ t, ∀ i < n, ∀ process, runs[i]? = some process →
      (c t i).1 = .ended (process.course store).2 := fun n => by
    induction n with
    | zero => exact ⟨0, nofun⟩
    | succ n ih =>
      obtain ⟨t, ht⟩ := ih
      by_cases hn : ∃ process, runs[n]? = some process
      · obtain ⟨process, hn⟩ := hn
        obtain ⟨u, hu⟩ := hone n process hn
        refine ⟨max t u, fun i hi other hother => ?_⟩
        rcases Nat.lt_succ_iff_lt_or_eq.1 hi with hi | rfl
        · exact h.ended_of_le (Nat.le_max_left t u) (ht i hi other hother)
        · obtain rfl := Option.some.inj (hn.symm.trans hother)
          exact h.ended_of_le (Nat.le_max_right t u) hu
      · refine ⟨t, fun i hi other hother => ?_⟩
        rcases Nat.lt_succ_iff_lt_or_eq.1 hi with hi | rfl
        · exact ht i hi other hother
        · exact absurd ⟨other, hother⟩ hn
  obtain ⟨t, ht⟩ := hfirst runs.length
  exact ⟨t, fun i process hi => ht i (List.getElem?_eq_some_iff.1 hi).1 process hi⟩

end Scheduled

end Core

end BehaviorTree
