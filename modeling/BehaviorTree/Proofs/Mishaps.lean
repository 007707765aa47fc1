import BehaviorTree.Proofs.Fillings
import BehaviorTree.Proofs.Mended
import BehaviorTree.Proofs.Strides

/-!
# Processes that differ in mishaps

A process and the same one with its actions mended do the same, but for notices, and but for how
work in the background does away with its completion handle: where one lets go of it the other fails
with a fixed text (`Process.Mends`). Who waits for the handle goes on alike. So it is with the call
of every action (`Action.process_mends`) and with the run of every tree (`Node.process_mends`).
-/

namespace BehaviorTree

/-- What came of a completion handle, and what comes of it once mended. Only work in the background
can let go of a handle. -/
def Handle.Mends (aside : Bool) (used used' : Option Outcome) : Prop :=
  used' = used ∨ aside ∧ used = none ∧ used' = some .dropped

/-- Processes that do the same but for mishaps. What is done `aside` is work in the background, and
the outcome it ends with is nobody's concern. -/
inductive Process.Mends : Bool → Process → Process → Prop
  | done {aside : Bool} (outcome : Outcome) : Mends aside (done outcome) (done outcome)
  | ended (outcome outcome' : Outcome) : Mends true (done outcome) (done outcome')
  | lets (outcome outcome' : Outcome) :
    Mends true (done outcome) (complete (some .dropped) fun _ => done outcome')
  | ask {aside : Bool} (scope : Scope) (request : Request Unit)
    {next next' : Option Value → Process} (h : ∀ answer, Mends aside (next answer) (next' answer)) :
    Mends aside (ask scope request next) (ask scope request next')
  | notice {aside : Bool} (event : Event) (hnotice : event.isNotice) {next : Unit → Process}
    {process' : Process} (h : Mends aside (next ()) process') :
    Mends aside (emit event next) process'
  | emit {aside : Bool} (event : Event) {next next' : Unit → Process}
    (h : Mends aside (next ()) (next' ())) : Mends aside (emit event next) (emit event next')
  | sleep {aside : Bool} (ms : Nat) {next next' : Unit → Process}
    (h : Mends aside (next ()) (next' ())) : Mends aside (sleep ms next) (sleep ms next')
  | start {aside : Bool} {work work' : Process} {next next' : Unit → Process}
    (hwork : Mends true work work') (h : Mends aside (next ()) (next' ())) :
    Mends aside (start work next) (start work' next')
  | await {aside : Bool} {work work' : Process} {next next' : Option Outcome → Process}
    (hwork : Mends true work work')
    (h : ∀ used used', Handle.Mends true used used' → Mends aside (next used) (next' used')) :
    Mends aside (await work next) (await work' next')
  | complete {aside : Bool} {used used' : Option Outcome} (hused : Handle.Mends aside used used')
    {next next' : Unit → Process} (h : Mends aside (next ()) (next' ())) :
    Mends aside (complete used next) (complete used' next')
  | parallel {aside : Bool} (policy : Policy) (input : Value)
    {children children' : List (Bool × Process)} {next next' : Outcome → Process}
    (hflags : children'.map (·.1) = children.map (·.1))
    (hchildren : ∀ (i : Nat) (child child' : Bool × Process), children[i]? = some child →
      children'[i]? = some child' → Mends false child.2 child'.2)
    (h : ∀ outcome, Mends aside (next outcome) (next' outcome)) :
    Mends aside (parallel policy input children next) (parallel policy input children' next')

namespace Process

theorem Mends.bind {process process' : Process} (h : process.Mends false process')
    {f f' : Outcome → Process} (hf : ∀ outcome, (f outcome).Mends false (f' outcome)) :
    (process.bind f).Mends false (process'.bind f') := by
  generalize haside : false = aside at h
  induction h with
  | done outcome =>
    subst haside
    exact hf outcome
  | ended | lets => cases haside
  | notice event hnotice _ ih => exact .notice event hnotice (ih haside)
  | emit event _ ih => exact .emit event (ih haside)
  | sleep ms _ ih => exact .sleep ms (ih haside)
  | start hwork _ _ ih => exact .start hwork (ih haside)
  | ask scope request _ ih =>
    subst haside
    exact .ask scope request fun answer => ih answer rfl
  | await hwork _ _ ih =>
    subst haside
    exact .await hwork fun used used' hused => ih used used' hused rfl
  | complete hused _ ih =>
    subst haside
    exact .complete hused (ih rfl)
  | parallel policy input hflags hchildren _ _ ih =>
    subst haside
    exact .parallel policy input hflags hchildren fun outcome => ih outcome rfl

theorem emitAll_mends {aside : Bool} {next next' : Unit → Process}
    (h : (next ()).Mends aside (next' ())) :
    ∀ events : List Event, (emitAll events next).Mends aside (emitAll events next')
  | [] => h
  | event :: rest => .emit event (emitAll_mends h rest)

theorem mends_panicked (message : String) :
    (panicked message).Mends false (done (.ofPanic message)) :=
  .notice _ rfl (.done _)

theorem mends_settle {used used' : Option Outcome} (h : Handle.Mends true used used') :
    (settle used).Mends false (settle used') := by
  obtain rfl | ⟨-, rfl, rfl⟩ := h
  · cases used' with
    | none => exact .emit _ (.done _)
    | some outcome => exact .done outcome
  · exact .notice _ rfl (.done _)

end Process

namespace Code

variable {α : Type} (scope : Scope)

theorem inCall_mends {finish finish' : Handle → α → Process}
    {fail fail' : Handle → String → Process}
    (hfinish : ∀ handle result, (finish handle result).Mends false (finish' handle result))
    (hfail : ∀ handle message, (fail handle message).Mends false (fail' handle message))
    (code : Code α) : ∀ handle, (code.inCall scope finish fail handle).Mends false
      (code.inCall scope finish' fail' handle) := by
  induction code with
  | done result => exact fun handle => hfinish handle result
  | panic message => exact fun handle => hfail handle message
  | ask request next ih => exact fun handle => .ask scope request fun answer => ih answer handle
  | put line next ih => exact fun handle => .emit (.line line) (ih () handle)
  | sleep ms next ih => exact ih ()
  | complete outcome next ih => exact fun handle => ih () _

theorem inPromise_mends {finish finish' : α → Process} {fail fail' : String → Process}
    (hfinish : ∀ result, (finish result).Mends false (finish' result))
    (hfail : ∀ message, (fail message).Mends false (fail' message)) (code : Code α) :
    (code.inPromise scope finish fail).Mends false (code.inPromise scope finish' fail') := by
  induction code with
  | done result => exact hfinish result
  | panic message => exact hfail message
  | ask request next ih => exact .ask scope request ih
  | put line next ih => exact .emit (.line line) (ih ())
  | sleep ms next ih => exact .sleep ms (ih ())
  | complete outcome next ih => exact ih ()

/-- Work in the background lets go of its handle where the mended work fails with it. -/
theorem inBackground_mends (code : Code Unit) :
    ∀ held, (code.inBackground scope).Mends true ((code.mendedAside held).inBackground scope) := by
  have hend : ∀ (outcome : Outcome) (held : Bool), (Process.done outcome).Mends true
      ((if held then complete (some .dropped) fun _ => done () else done ()).inBackground scope) :=
    fun outcome held => by
      cases held with
      | false => exact .ended _ _
      | true => exact .lets _ _
  induction code with
  | done result => exact hend _
  | panic message => exact hend _
  | ask request next ih => exact fun held => .ask scope request fun answer => ih answer held
  | put line next ih => exact fun held => .emit (.line line) (ih () held)
  | sleep ms next ih => exact fun held => .sleep ms (ih () held)
  | complete outcome next ih =>
    intro held
    refine .complete ?_ (ih () false)
    cases held with
    | false => exact .inl rfl
    | true =>
      cases outcome with
      | none => exact .inr ⟨rfl, rfl, rfl⟩
      | some outcome => exact .inl rfl

end Code

namespace Action

/-- How a callback goes on at the end of its call. -/
def atEnd (scope : Scope) (handle : Handle) (work : Option (Code Unit)) : Process :=
  match work, handle with
  | none, handle => .settle (handle.getD none)
  | some code, none => .await (code.inBackground scope) .settle
  | some code, some used => .start (code.inBackground scope) fun _ => .settle used

/-- How a callback goes on after a panic. -/
def atPanic (handle : Handle) (message : String) : Process :=
  match handle with
  | some (some outcome) => .done outcome
  | _ => .panicked message

theorem mendedCall_mends (scope : Scope) (code : Code (Option (Code Unit))) :
    ∀ handle : Handle, (code.inCall scope (atEnd scope) atPanic handle).Mends false
      ((code.mendedCall handle).inCall scope (atEnd scope) atPanic handle.kept) := by
  induction code with
  | done work =>
    rintro (_ | _ | outcome) <;> rcases work with _ | work
    · exact Process.mends_settle (.inr ⟨rfl, rfl, rfl⟩)
    · exact .await (work.inBackground_mends scope true) fun _ _ => Process.mends_settle
    · exact Process.mends_settle (.inr ⟨rfl, rfl, rfl⟩)
    · exact .start (work.inBackground_mends scope false)
        (Process.mends_settle (.inr ⟨rfl, rfl, rfl⟩))
    · exact .done outcome
    · exact .start (work.inBackground_mends scope false) (.done outcome)
  | panic message =>
    rintro (_ | _ | outcome)
    · exact Process.mends_panicked message
    · exact Process.mends_panicked message
    · exact .done outcome
  | ask request next ih => exact fun handle => .ask scope request fun answer => ih answer handle
  | put line next ih => exact fun handle => .emit (.line line) (ih () handle)
  | sleep ms next ih => exact fun handle => ih () handle
  | complete outcome next ih =>
    rintro (_ | _ | used)
    · cases outcome with
      | none => exact ih () (some none)
      | some outcome => exact ih () (some (some outcome))
    · exact ih () (some none)
    · exact ih () (some (some used))

/-- The call of an action and the call of the action mended. -/
theorem process_mends (scope : Scope) (input : Value) (action : Action) :
    (action.process scope input).Mends false (action.mended.process scope input) := by
  cases action with
  | plain call =>
    simp only [mended, process, Code.inCall_settled]
    exact Code.inCall_mends scope (fun _ _ => .done _) (fun _ => Process.mends_panicked) _ none
  | boolean call =>
    simp only [mended, process, Code.inCall_settled]
    refine Code.inCall_mends scope (fun _ payload => ?_) (fun _ => Process.mends_panicked) _ none
    split <;> exact .done _
  | promise call =>
    simp only [mended, process, Code.inPromise_settled]
    exact Code.inPromise_mends scope (fun _ => .done _) Process.mends_panicked _
  | callback call => exact mendedCall_mends scope (call input) none

end Action

namespace Node

/-- Trees whose runs do the same but for mishaps. -/
def Mends (tree tree' : Node) : Prop :=
  ∀ trace input, (tree.process trace input).Mends false (tree'.process trace input)

theorem traced_mends {node node' : Node} {trace : Trace} {body body' : Trace → Process}
    (hlabel : Trace.label node' = Trace.label node) (hinfo : node'.info = node.info)
    (h : ∀ inside, (body inside).Mends false (body' inside)) :
    (traced trace node body).Mends false (traced trace node' body') := by
  have henter : trace.enter node' = trace.enter node := by
    simp only [Trace.enter, hlabel, hinfo]
  unfold traced
  rw [henter, hinfo]
  exact Process.emitAll_mends ((h _).bind fun outcome => Process.emitAll_mends (.done outcome) _) _

theorem chain_mends (whileSuccess : Bool) : ∀ {children : List Node},
    (∀ child ∈ children, child.Mends child.mended) → ∀ (trace : Trace) (outcome : Outcome),
    (chain whileSuccess children trace outcome).Mends false
      (chain whileSuccess (mendedAll children) trace outcome)
  | [], _, _, outcome => .done outcome
  | child :: rest, h, trace, outcome => by
    have ih := chain_mends whileSuccess fun c hc => h c (List.mem_cons_of_mem child hc)
    simp only [mendedAll, chain]
    split
    · exact (h child List.mem_cons_self trace _).bind (ih trace)
    · exact .done outcome

theorem branches_mended (trace : Trace) (input : Value) (children : List Node) :
    branches (mendedAll children) trace input
      = children.map fun child => (child.info.waitForMe, child.mended.process trace input) := by
  rw [mendedAll_eq_map, branches_eq_map, List.map_map]
  exact List.map_congr_left fun child _ => by rw [Function.comp_apply, info_mended]

/-- A tree runs as it does with its actions mended, but for mishaps. -/
theorem process_mends (tree : Node) : tree.Mends tree.mended := by
  induction tree using Node.induction with
  | step tree ih =>
    intro trace input
    cases tree with
    | leaf info path action =>
      simp only [mended, process]
      refine traced_mends rfl rfl fun inside => ?_
      exact Process.emitAll_mends (.emit _ (action.process_mends info.scope input)) _
    | sequence info children =>
      simp only [mended, process]
      exact traced_mends rfl rfl fun inside => chain_mends true ih inside _
    | selector info children =>
      simp only [mended, process]
      exact traced_mends rfl rfl fun inside => chain_mends false ih inside _
    | parallel info policy children =>
      simp only [mended, process]
      refine traced_mends rfl rfl fun inside => ?_
      cases children with
      | nil => exact .done _
      | cons child rest =>
        have hmended := branches_mended inside input (child :: rest)
        rw [mendedAll] at hmended ⊢
        rw [hmended, branches_eq_map]
        refine .parallel policy input ?_ (fun i branch branch' hi hi' => ?_) .done
        · rw [List.map_map, List.map_map]
          rfl
        · rw [List.getElem?_map, Option.map_eq_some_iff] at hi hi'
          obtain ⟨c, hc, rfl⟩ := hi
          obtain ⟨c', hc', rfl⟩ := hi'
          obtain rfl := Option.some.inj (hc.symm.trans hc')
          exact ih c (List.mem_of_getElem? hc) inside input
    | decorator info d child =>
      simp only [mended, process]
      exact traced_mends rfl rfl fun inside =>
        (ih child List.mem_cons_self inside input).bind fun outcome => .done _

end Node

end BehaviorTree
