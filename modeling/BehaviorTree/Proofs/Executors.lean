import BehaviorTree.Proofs.Handover

/-!
# What carries out a process

A process is carried out by whoever tells it something in answer, in place, or by the first task of
a machine whose tasks take their steps in any order. From a state, each of them can lead it to some
outcome and a later state (`Executor`). The three have in common that what goes on with the outcome
of a process begins in the state in which that process ended, and that lines of the trace are
written on the way.
-/

namespace BehaviorTree

/-- What carries out processes. -/
structure Executor (σ : Type) where
  /-- To what outcome and to what state a process can lead. Without an outcome it has not ended. -/
  Leads : Process → σ → Option Outcome → σ → Prop
  /-- The state after some lines of the trace. -/
  write : List String → σ → σ
  exists_leads : ∀ process s, ∃ r last, Leads process s r last
  leads_done : ∀ {outcome s r last}, Leads (.done outcome) s r last ↔ r = some outcome ∧ last = s
  leads_bind : ∀ {process f s r last}, Leads (process.bind f) s r last ↔
    r = none ∧ Leads process s none last
      ∨ ∃ outcome between, Leads process s (some outcome) between ∧ Leads (f outcome) between r last
  leads_lines : ∀ {lines next s r last},
    Leads (.emitAll (lines.map .trace) next) s r last ↔ Leads (next ()) (write lines s) r last

namespace Process

variable {process rest : Process} {f : Outcome → Process}

theorem Meets.bind {x : Exchange} (h : process.Meets x rest) :
    (process.bind f).Meets x (rest.bind f) := by
  cases h with
  | ask scope request next answer => exact .ask scope request _ answer
  | emit event next => exact .emit event _
  | sleep ms next => exact .sleep ms _
  | start work next => exact .start work _
  | await work next used => exact .await work _ used
  | complete used next => exact .complete used _
  | parallel policy input children next outcome => exact .parallel policy input children _ outcome

theorem Comes.bind {xs : List Exchange} (h : process.Comes xs rest) :
    (process.bind f).Comes xs (rest.bind f) := by
  induction h with
  | here process => exact .here _
  | step hx _ ih => exact .step hx.bind ih

theorem emitAll_comes (next : Unit → Process) : ∀ events : List Event,
    (emitAll events next).Comes (events.map .emit) (next ())
  | [] => .here _
  | event :: rest => .step (.emit event _) (emitAll_comes next rest)

theorem inPlace_emitAll_eq (next : Unit → Process) : ∀ (events : List Event) (world : World),
    (emitAll events next).inPlace world = (next ()).inPlace (events.foldl World.emit world)
  | [], _ => rfl
  | event :: rest, world => by
    rw [emitAll, inPlace, inPlace_emitAll_eq next rest, List.foldl_cons]

end Process

namespace Executor

/-- Telling a process something in answer. The state is what it did and was told so far. -/
def told : Executor (List Exchange) where
  Leads process xs r last := ∃ ys outcome, process.Ends ys outcome ∧ r = some outcome
    ∧ last = xs ++ ys
  write lines xs := xs ++ (lines.map .trace).map .emit
  exists_leads process xs := by
    obtain ⟨ys, outcome, h⟩ := process.exists_ends
    exact ⟨_, _, ys, outcome, h, rfl, rfl⟩
  leads_done {outcome xs r last} := by
    constructor
    · rintro ⟨ys, outcome', h, rfl, rfl⟩
      obtain ⟨rfl, rfl⟩ := Process.ends_done h
      exact ⟨rfl, List.append_nil xs⟩
    · rintro ⟨rfl, rfl⟩
      exact ⟨[], outcome, .here _, rfl, (List.append_nil last).symm⟩
  leads_bind {process f xs r last} := by
    constructor
    · rintro ⟨ys, outcome, h, rfl, rfl⟩
      obtain ⟨before, between, after, rfl, hbefore, hafter⟩ := Process.ends_bind h
      exact .inr ⟨between, xs ++ before, ⟨before, between, hbefore, rfl, rfl⟩,
        after, outcome, hafter, rfl, (List.append_assoc xs before after).symm⟩
    · rintro (⟨rfl, ys, outcome, -, hr, -⟩ | ⟨between, mid, ⟨before, _, hbefore, hr, rfl⟩,
        after, outcome, hafter, rfl, rfl⟩)
      · cases hr
      · cases hr
        exact ⟨before ++ after, outcome, hbefore.bind.trans hafter, rfl,
          List.append_assoc xs before after⟩
  leads_lines {lines next xs r last} := by
    constructor
    · rintro ⟨ys, outcome, h, rfl, rfl⟩
      obtain ⟨zs, rfl, hzs⟩ := Process.ends_emitAll h
      exact ⟨zs, outcome, hzs, rfl, (List.append_assoc xs _ zs).symm⟩
    · rintro ⟨ys, outcome, h, rfl, rfl⟩
      exact ⟨_, outcome, (Process.emitAll_comes next _).trans h, rfl, List.append_assoc xs _ ys⟩

end Executor

/-- A world after some lines of the trace. -/
def World.write (world : World) (lines : List String) : World :=
  (lines.map .trace).foldl World.emit world

/-- A world, and what is left over to be done to it. -/
structure Backlog where
  world : World
  leftovers : List Leftover := []

/-- What a process leaves when it is carried out in place. -/
def Backlog.after (s : Backlog) (process : Process) : Backlog :=
  { world := (process.inPlace s.world).world
    leftovers := s.leftovers ++ (process.inPlace s.world).leftovers }

/-- Carrying out processes in place. -/
def Executor.inPlace : Executor Backlog where
  Leads process s r last := r = some (process.inPlace s.world).outcome ∧ last = s.after process
  write lines s := { s with world := s.world.write lines }
  exists_leads process s := ⟨_, _, rfl, rfl⟩
  leads_done {outcome s r last} := by
    have hafter : s.after (.done outcome) = s := by
      rw [Backlog.after, Process.inPlace, List.append_nil]
    rw [hafter, Process.inPlace]
  leads_bind {process f s r last} := by
    have houtcome : ((process.bind f).inPlace s.world).outcome
        = ((f (process.inPlace s.world).outcome).inPlace (s.after process).world).outcome := by
      rw [Process.inPlace_bind]
      rfl
    have hafter : s.after (process.bind f)
        = (s.after process).after (f (process.inPlace s.world).outcome) := by
      rw [Backlog.after, Process.inPlace_bind]
      simp only [Backlog.after, InPlace.andThen, List.append_assoc]
    rw [houtcome, hafter]
    constructor
    · rintro ⟨rfl, rfl⟩
      exact .inr ⟨_, _, ⟨rfl, rfl⟩, rfl, rfl⟩
    · rintro (⟨-, hr, -⟩ | ⟨outcome, between, ⟨hr, rfl⟩, rfl, rfl⟩)
      · cases hr
      · cases hr
        exact ⟨rfl, rfl⟩
  leads_lines {lines next s r last} := by
    rw [Backlog.after, Process.inPlace_emitAll_eq]
    rfl

/-- A machine whose first task is about to be given a process and to take its first step, and the
moves that come after that. -/
@[ext]
structure Opening where
  machine : Machine
  schedule : List Move
  pos : 0 < machine.tasks.size
  state : (machine.task 0).state = .draining
  listener : (machine.task 0).listener = .nobody

namespace Opening

variable {process : Process} {f : Outcome → Process} {outcome : Outcome} {r r' : Option Outcome}
  {s last last' : Opening}

/-- The first task is given a process. -/
def given (s : Opening) (process : Process) : Machine :=
  s.machine.setState 0 (.ready process)

/-- The process has ended in one of the moves, or it has not after all of them. -/
def Leads (process : Process) (s : Opening) (r : Option Outcome) (last : Opening) : Prop :=
  Machine.untilEnd 0 (.step 0 :: s.schedule) (s.given process) = (r, last.machine, last.schedule)

theorem pos_given (s : Opening) (process : Process) : 0 < (s.given process).tasks.size := by
  rw [given, Machine.setState, Machine.size_changeTask]
  exact s.pos

theorem state_given (s : Opening) (process : Process) :
    ((s.given process).task 0).state = .ready process :=
  s.machine.state_setState s.pos _

theorem listener_given (s : Opening) (process : Process) :
    ((s.given process).task 0).listener = .nobody := by
  rw [given, Machine.listener_setState, s.listener]

theorem outcome?_given (s : Opening) (process : Process) : (s.given process).outcome? 0 = none :=
  Machine.outcome?_setState s.pos fun _ => nofun

theorem given_bind (s : Opening) (process : Process) :
    (s.given process).bind 0 f = s.given (process.bind f) :=
  Machine.bind_setState_self s.pos _

theorem unique (h : Leads process s r last) (h' : Leads process s r' last') :
    r = r' ∧ last = last' := by
  obtain ⟨hr, hlast⟩ := Prod.mk.inj (h.symm.trans h')
  obtain ⟨hmachine, hschedule⟩ := Prod.mk.inj hlast
  exact ⟨hr, Opening.ext hmachine hschedule⟩

theorem exists_leads (process : Process) (s : Opening) : ∃ r last, Leads process s r last := by
  obtain ⟨r, later, rest, huntil, hpos, hnobody⟩ := Machine.exists_untilEnd
    (.step 0 :: s.schedule) (s.given process) (s.pos_given process) (s.listener_given process)
  refine ⟨r, ⟨later.setState 0 .draining, rest, ?_, later.state_setState hpos _, ?_⟩, huntil⟩
  · rwa [Machine.setState, Machine.size_changeTask]
  · rwa [Machine.listener_setState]

theorem leads_done : Leads (.done outcome) s r last ↔ r = some outcome ∧ last = s := by
  have hfinish : (s.given (.done outcome)).step 0 = s.machine.setState 0 (.ended outcome) := by
    rw [Machine.step, state_given]
    show (s.given (.done outcome)).finish 0 outcome = _
    rw [Machine.finish_of_nobody (s.listener_given _), given, Machine.setState_setState]
  have hdraining : s.machine.setState 0 .draining = s.machine := by
    rw [← s.state, Machine.setState_self]
  have hleads : Leads (.done outcome) s (some outcome) s := by
    unfold Leads
    rw [Machine.untilEnd_cons (s.outcome?_given _)]
    show Machine.untilEnd 0 s.schedule ((s.given (.done outcome)).step 0) = _
    rw [hfinish, Machine.untilEnd_ended s.pos, hdraining]
  constructor
  · exact fun h => unique h hleads
  · rintro ⟨rfl, rfl⟩
    exact hleads

theorem leads_bind : Leads (process.bind f) s r last ↔
    r = none ∧ Leads process s none last
      ∨ ∃ outcome between, Leads process s (some outcome) between
        ∧ Leads (f outcome) between r last := by
  have hbind := Machine.untilEnd_bind (f := f) (.step 0 :: s.schedule) (s.given process)
    (s.pos_given process) (s.listener_given process) (s.outcome?_given process)
  -- moves that are given lead to one thing only, so all there is to say is what that is
  obtain ⟨r', between, hleads⟩ := exists_leads process s
  rw [given_bind, show Machine.untilEnd 0 (.step 0 :: s.schedule) (s.given process) = _ from hleads]
    at hbind
  cases r' with
  | none =>
    have hnone : Leads (process.bind f) s none between := hbind
    constructor
    · intro h
      obtain ⟨rfl, rfl⟩ := unique h hnone
      exact .inl ⟨rfl, hleads⟩
    · rintro (⟨rfl, h⟩ | ⟨outcome, between', h, -⟩)
      · rwa [(unique h hleads).2]
      · cases (unique h hleads).1
  | some outcome =>
    constructor
    · exact fun h => .inr ⟨outcome, between, hleads, hbind.symm.trans h⟩
    · rintro (⟨-, h⟩ | ⟨outcome', between', h, h'⟩)
      · cases (unique h hleads).1
      · obtain ⟨heq, rfl⟩ := unique h hleads
        cases heq
        exact hbind.trans h'

/-- The opening after some lines of the trace. -/
def write (lines : List String) (s : Opening) : Opening :=
  { s with machine := { s.machine with world := s.machine.world.write lines } }

theorem leads_line (text : String) (next : Unit → Process) :
    Leads (.emit (.trace text) next) s r last ↔ Leads (next ()) (s.write [text]) r last := by
  have hstep : (s.given (.emit (.trace text) next)).step 0
      = ((s.write [text]).given (next ())).step 0 := by
    let between : Machine := { s.given (.emit (.trace text) next) with
      world := s.machine.world.emit (.trace text) }
    have hstate : (between.task 0).state = .ready (.emit (.trace text) next) := s.state_given _
    have hgiven : (s.write [text]).given (next ()) = between.setState 0 (.ready (next ())) :=
      (Machine.setState_setState (s.write [text]).machine _ _).symm
    rw [Machine.step, state_given, Machine.step, state_given, hgiven]
    exact (Machine.stepProcess_setState (.ready _) (next ()) between (s.pos_given _)
      (hstate ▸ .ready _)).symm
  unfold Leads
  rw [Machine.untilEnd_cons (outcome?_given _ _), Machine.untilEnd_cons (outcome?_given _ _)]
  show Machine.untilEnd 0 s.schedule ((s.given _).step 0) = _ ↔ Machine.untilEnd 0 s.schedule _ = _
  rw [hstep]
  rfl

theorem leads_lines (next : Unit → Process) : ∀ {lines : List String} {s : Opening},
    Leads (.emitAll (lines.map .trace) next) s r last ↔ Leads (next ()) (s.write lines) r last
  | [], _ => Iff.rfl
  | line :: _, _ => (leads_line line _).trans (leads_lines next)

end Opening

/-- Carrying out processes by the first task of a machine, in any order of its steps and those of
the other tasks. -/
def Executor.onMachine : Executor Opening where
  Leads := Opening.Leads
  write := Opening.write
  exists_leads := Opening.exists_leads
  leads_done := Opening.leads_done
  leads_bind := Opening.leads_bind
  leads_lines := Opening.leads_lines _

end BehaviorTree
