import BehaviorTree.Proofs.Compiling
import BehaviorTree.Proofs.Joining
import BehaviorTree.Run.Engine

/-!
# Runs that never wait

A process that only asks scopes and puts out events is carried out in a single turn
(`Machine.carryOut_of_direct`), so calling it takes no time on a clock and gives what running it
in place gives (`Engine.callOne_of_direct`), whatever else there is on the machine.
-/

namespace BehaviorTree

/-- A process that comes to its outcome without waiting, and starts nothing on its way. -/
inductive Process.Direct : Process → Prop where
  | done {outcome : Outcome} : Direct (.done outcome)
  | ask {scope : Scope} {request : Request Unit} {next : Option Value → Process} :
    (∀ answer, Direct (next answer)) → Direct (.ask scope request next)
  | emit {event : Event} {next : Unit → Process} :
    Direct (next ()) → Direct (.emit event next)

/-- An action no call of which waits. -/
def Action.Prompt (action : Action) : Prop :=
  ∀ scope input, (action.process scope input).Direct

namespace Process

theorem Direct.bind {process : Process} (h : process.Direct) {f : Outcome → Process}
    (hf : ∀ outcome, (f outcome).Direct) : (process.bind f).Direct := by
  induction h with
  | done => exact hf _
  | ask _ ih => exact .ask ih
  | emit _ ih => exact .emit ih

theorem direct_emitAll {next : Unit → Process} (h : (next ()).Direct) :
    ∀ events : List Event, (emitAll events next).Direct
  | [] => h
  | _ :: events => .emit (direct_emitAll h events)

end Process

namespace Code

theorem direct_inCall {α : Type} {scope : Scope} {finish : Handle → α → Process}
    {fail : Handle → String → Process} (hfinish : ∀ handle result, (finish handle result).Direct)
    (hfail : ∀ handle message, (fail handle message).Direct) (code : Code α) :
    ∀ handle, (code.inCall scope finish fail handle).Direct := by
  induction code with
  | done result => exact fun handle => hfinish handle result
  | panic message => exact fun handle => hfail handle message
  | ask request next ih => exact fun handle => .ask fun answer => ih answer handle
  | put line next ih => exact fun handle => .emit (ih () handle)
  | sleep ms next ih => exact fun handle => ih () handle
  | complete outcome next ih => exact fun handle => ih () _

end Code

namespace Action

theorem prompt_of_convention {action : Action}
    (h : action.convention = .plain ∨ action.convention = .boolean) : action.Prompt := by
  intro scope input
  cases action with
  | plain call | boolean call =>
    exact Code.direct_inCall (fun _ _ => .done) (fun _ _ => .emit .done) (call input) none
  | promise | callback =>
    rcases h with h | h <;> cases h

end Action

namespace Node

theorem direct_chain {whileSuccess : Bool} {trace : Trace} : ∀ {nodes : List Node},
    (∀ n ∈ nodes, ∀ trace input, (n.process trace input).Direct) →
    ∀ outcome, (chain whileSuccess nodes trace outcome).Direct
  | [], _, outcome => .done
  | n :: nodes, h, outcome => by
    rw [chain]
    split
    · exact (h n List.mem_cons_self trace _).bind
        (direct_chain fun m hm => h m (List.mem_cons_of_mem _ hm))
    · exact .done

/-- A tree without parallel nodes whose actions are prompt never waits. -/
theorem direct_process (n : Node) :
    (∀ position m, n.at? position = some m → m.kind ≠ .parallel) →
    (∀ position info path action, n.at? position = some (.leaf info path action) →
      action.Prompt) →
    ∀ trace input, (n.process trace input).Direct := by
  induction n using Node.induction with
  | step n ih =>
    intro hparallel hprompt trace input
    have hchildren : ∀ child ∈ n.children, ∀ trace input, (child.process trace input).Direct := by
      intro child hchild
      obtain ⟨k, hk⟩ := List.getElem?_of_mem hchild
      have hat : ∀ position, n.at? (k :: position) = child.at? position := fun position => by
        rw [at?, hk]
        rfl
      exact ih child hchild
        (fun position m hm => hparallel (k :: position) m ((hat position).trans hm))
        fun position info path action h =>
          hprompt (k :: position) info path action ((hat position).trans h)
    have htraced : ∀ {body : Trace → Process}, (∀ inside, (body inside).Direct) →
        (n.traced trace body).Direct := fun hbody =>
      Process.direct_emitAll ((hbody _).bind fun _ => Process.direct_emitAll .done _) _
    cases n with
    | leaf info path action =>
      exact htraced fun inside => Process.direct_emitAll
        (.emit (hprompt [] info path action rfl _ _)) _
    | sequence info children | selector info children =>
      exact htraced fun inside => direct_chain hchildren _
    | parallel info policy children => exact absurd rfl (hparallel [] _ rfl)
    | decorator info decorator child =>
      exact htraced fun inside =>
        (hchildren child (List.mem_singleton.2 rfl) _ _).bind fun _ => .done

end Node

namespace Machine

/-- A turn that does not wait changes the world, and ends the task. -/
theorem carryOut_of_direct {process : Process} (h : process.Direct) (id : TaskId) :
    ∀ machine : Machine, machine.carryOut id process
      = ({ machine with world := (process.inPlace machine.world).world } : Machine).finish id
        (process.inPlace machine.world).outcome := by
  induction h with
  | done => exact fun _ => rfl
  | ask _ ih => exact fun machine => ih _ _
  | emit _ ih => exact fun machine => ih _

theorem turn_of_ready {machine : Machine} {id : TaskId} {process : Process}
    (h : (machine.task id).state = .ready process) :
    machine.turn id
      = (machine.changeTask id fun task => { task with queued := false }).carryOut id process := by
  have hstate : ((machine.changeTask id fun task => { task with queued := false }).task id).state
      = .ready process := by
    rw [task_changeTask]
    split
    · exact h
    · exact h
  unfold turn
  simp only [hstate]

theorem finish_of_nobody {machine : Machine} {id : TaskId}
    (h : (machine.task id).listener = .nobody) (outcome : Outcome) :
    machine.finish id outcome = machine.setState id (.ended outcome) := by
  have hlistener : ((machine.setState id (.ended outcome)).task id).listener = .nobody := by
    rw [setState, task_changeTask]
    split
    · exact h
    · exact h
  unfold finish
  simp only [hlistener]

/-- The last task of a machine, if it is called and does not wait, ends in its first turn. -/
theorem turn_of_direct {process : Process} (h : process.Direct) (machine : Machine) :
    let called : Machine := { machine with
      tasks := machine.tasks ++ [{ state := .ready process, called := true }].toArray }
    ((called.turn machine.tasks.size).outcome? machine.tasks.size
        = some (process.inPlace machine.world).outcome)
      ∧ (called.turn machine.tasks.size).world = (process.inPlace machine.world).world := by
  intro called
  have hsize : machine.tasks.size < called.tasks.size := by
    show _ < (machine.tasks ++ _).size
    simp
  have htask : called.task machine.tasks.size = { state := .ready process, called := true } := by
    simp [called, task, Array.getD_eq_getD_getElem?]
  have hlistener : ((called.changeTask machine.tasks.size fun task =>
      { task with queued := false }).task machine.tasks.size).listener = .nobody := by
    rw [task_changeTask, if_pos ⟨rfl, hsize⟩, htask]
  rw [turn_of_ready (by rw [htask]), carryOut_of_direct h, finish_of_nobody]
  · refine ⟨?_, rfl⟩
    rw [outcome?, state_setState _ (by simpa [changeTask] using hsize)]
    rfl
  · exact hlistener

theorem advance_of_ended (machine : Machine) {id : TaskId} {outcome : Outcome}
    (hwoken : machine.woken = true)
    (h : (({ machine with woken := false } : Machine).turn id).outcome? id = some outcome) :
    advance [id] rounds machine = ({ machine with woken := false } : Machine).turn id := by
  obtain ⟨n, hn⟩ : ∃ n, rounds = n + 1 := Nat.exists_eq_succ_of_ne_zero (by decide)
  rw [hn, advance]
  simp [hwoken, look, h]

/-- A called process that does not wait has ended when its caller has looked once. -/
theorem call_of_direct {process : Process} (h : process.Direct) (machine : Machine) :
    (machine.call [process]).1 = [some (process.inPlace machine.world).outcome]
      ∧ (machine.call [process]).2.world = (process.inPlace machine.world).world := by
  -- a new caller has reason to look, so its task has its turn before anything else
  obtain ⟨houtcome, hworld⟩ := turn_of_direct h { machine with woken := false }
  have hadvance := advance_of_ended { machine with
    tasks := machine.tasks ++ [{ state := .ready process, called := true }].toArray
    woken := true } rfl houtcome
  unfold call
  simp only [List.length_singleton, List.range'_one, List.map_cons, List.map_nil, hadvance]
  exact ⟨congrArg (fun outcome => [outcome]) houtcome, hworld⟩

end Machine

/-- A call on any engine gives what running in place gives, if nothing is left over and, on a
clock, nothing waits. -/
theorem Engine.callOne_eq {engine : Engine} {process : Process} {outcome : Outcome}
    {world : World} (h : process.inPlace engine.world = { outcome, world })
    (hdirect : engine.now? = none ∨ process.Direct) :
    (engine.callOne process).1 = outcome ∧ (engine.callOne process).2.world = world
      ∧ (engine.now? = none → (engine.callOne process).2.now? = none) := by
  cases engine with
  | inPlace start =>
    have h : process.inPlace start = { outcome, world } := h
    simp only [callOne, call, callInPlace, h, InPlace.drain, List.foldl_nil]
    exact ⟨rfl, rfl, fun _ => rfl⟩
  | clocked machine =>
    have h : process.inPlace machine.world = { outcome, world } := h
    obtain ⟨houtcome, hworld⟩ := Machine.call_of_direct (hdirect.resolve_left nofun) machine
    rw [h] at houtcome hworld
    simp only [callOne, call, houtcome]
    exact ⟨rfl, hworld, nofun⟩

end BehaviorTree
