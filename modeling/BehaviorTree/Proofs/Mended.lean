import BehaviorTree.Proofs.Compiling
import BehaviorTree.Process

/-!
# Mended actions

An action is mended by having it report what would become of its mishaps: where it panics it fails
with the message, and where it lets go of its completion handle it fails with a fixed text. Up to
there it does what it did before (`Action.mended`). A mended action never panics and never lets go
of its handle (`Action.mended_orderly`), and one that is in order already does the same as before
(`Action.process_mended`).
-/

namespace BehaviorTree

/-- What becomes of a panic. -/
def Outcome.ofPanic (message : String) : Outcome :=
  .failure (.str message)

/-- What becomes of a callback whose completion handle is let go of. -/
def Outcome.dropped : Outcome :=
  .failure (.str "callback dropped without completing")

namespace Code

variable {α β : Type}

/-- Code with another result, and a result where it panics. -/
def settled (result : α → β) (panicked : String → β) : Code α → Code β
  | done r => done (result r)
  | panic message => done (panicked message)
  | ask request next => ask request fun answer => settled result panicked (next answer)
  | put line next => put line fun u => settled result panicked (next u)
  | sleep ms next => sleep ms fun u => settled result panicked (next u)
  | complete outcome next => complete outcome fun u => settled result panicked (next u)

/-- Work in the background that still has a handle, or not: before it would let go of the handle,
it fails. -/
def mendedAside : Bool → Code Unit → Code Unit
  | held, done _ => if held then complete (some .dropped) fun _ => done () else done ()
  | held, panic _ => if held then complete (some .dropped) fun _ => done () else done ()
  | held, ask request next => ask request fun answer => mendedAside held (next answer)
  | held, put line next => put line fun u => mendedAside held (next u)
  | held, sleep ms next => sleep ms fun u => mendedAside held (next u)
  | held, complete outcome next =>
    complete (if held then some (outcome.getD .dropped) else outcome) fun u =>
      mendedAside false (next u)

/-- The call of a callback, from what became of its handle so far. A handle that is let go of is
kept until the call is over, when it is known whether the call panics. -/
def mendedCall : Handle → Code (Option (Code Unit)) → Code (Option (Code Unit))
  | handle, done work =>
    match handle, work with
    | none, some work => done (some (work.mendedAside true))
    | some (some _), work => done (work.map (mendedAside false))
    | _, work => complete (some .dropped) fun _ => done (work.map (mendedAside false))
  | handle, panic message =>
    match handle with
    | some (some _) => done none
    | _ => complete (some (.ofPanic message)) fun _ => done none
  | handle, ask request next => ask request fun answer => mendedCall handle (next answer)
  | handle, put line next => put line fun u => mendedCall handle (next u)
  | handle, sleep ms next => sleep ms fun u => mendedCall handle (next u)
  | handle, complete outcome next =>
    match handle.orElse fun _ => some outcome with
    | some none => mendedCall (some none) (next ())
    | used => complete outcome fun u => mendedCall used (next u)

/-- Code that does not panic. -/
inductive Calm : Code α → Prop
  | done (result : α) : Calm (done result)
  | ask (request : Request Unit) {next : Option Value → Code α} (h : ∀ answer, Calm (next answer)) :
    Calm (ask request next)
  | put (line : Line) {next : Unit → Code α} (h : Calm (next ())) : Calm (put line next)
  | sleep (ms : Nat) {next : Unit → Code α} (h : Calm (next ())) : Calm (sleep ms next)
  | complete (outcome : Option Outcome) {next : Unit → Code α} (h : Calm (next ())) :
    Calm (complete outcome next)

/-- Work in the background that does not panic and, if it has a handle, uses it with an outcome. -/
inductive Keeps : Bool → Code Unit → Prop
  | done : Keeps false (done ())
  | ask {held : Bool} (request : Request Unit) {next : Option Value → Code Unit}
    (h : ∀ answer, Keeps held (next answer)) : Keeps held (ask request next)
  | put {held : Bool} (line : Line) {next : Unit → Code Unit} (h : Keeps held (next ())) :
    Keeps held (put line next)
  | sleep {held : Bool} (ms : Nat) {next : Unit → Code Unit} (h : Keeps held (next ())) :
    Keeps held (sleep ms next)
  | complete {held : Bool} (outcome : Outcome) {next : Unit → Code Unit}
    (h : Keeps false (next ())) : Keeps held (complete (some outcome) next)
  | again {next : Unit → Code Unit} (h : Keeps false (next ())) :
    Keeps false (complete none next)

/-- The call of a callback that does not panic and uses its handle with an outcome, or hands it on
to work that does. -/
inductive Delivers : Bool → Code (Option (Code Unit)) → Prop
  | done : Delivers false (done none)
  | start {held : Bool} {work : Code Unit} (h : Keeps held work) :
    Delivers held (done (some work))
  | ask {held : Bool} (request : Request Unit) {next : Option Value → Code (Option (Code Unit))}
    (h : ∀ answer, Delivers held (next answer)) : Delivers held (ask request next)
  | put {held : Bool} (line : Line) {next : Unit → Code (Option (Code Unit))}
    (h : Delivers held (next ())) : Delivers held (put line next)
  | sleep {held : Bool} (ms : Nat) {next : Unit → Code (Option (Code Unit))}
    (h : Delivers held (next ())) : Delivers held (sleep ms next)
  | complete {held : Bool} (outcome : Outcome) {next : Unit → Code (Option (Code Unit))}
    (h : Delivers false (next ())) : Delivers held (complete (some outcome) next)
  | again {next : Unit → Code (Option (Code Unit))} (h : Delivers false (next ())) :
    Delivers false (complete none next)

theorem settled_calm (result : α → β) (panicked : String → β) (code : Code α) :
    (code.settled result panicked).Calm := by
  induction code with
  | done r => exact .done _
  | panic message => exact .done _
  | ask request next ih => exact .ask request ih
  | put line next ih => exact .put line (ih ())
  | sleep ms next ih => exact .sleep ms (ih ())
  | complete outcome next ih => exact .complete outcome (ih ())

theorem Calm.settled_eq {code : Code α} (h : code.Calm) (panicked : String → α) :
    code.settled id panicked = code := by
  induction h with
  | done r => rfl
  | ask request _ ih => simp only [settled, ih]
  | put line _ ih => simp only [settled, ih]
  | sleep ms _ ih => simp only [settled, ih]
  | complete outcome _ ih => simp only [settled, ih]

theorem mendedAside_keeps (code : Code Unit) : ∀ held, (code.mendedAside held).Keeps held := by
  have hend : ∀ held : Bool, Keeps held
      (if held then complete (some .dropped) fun _ => done () else done ()) := fun held => by
    cases held with
    | false => exact .done
    | true => exact .complete _ .done
  induction code with
  | done r => exact hend
  | panic message => exact hend
  | ask request next ih => exact fun held => .ask request fun answer => ih answer held
  | put line next ih => exact fun held => .put line (ih () held)
  | sleep ms next ih => exact fun held => .sleep ms (ih () held)
  | complete outcome next ih =>
    intro held
    cases held with
    | true => exact .complete _ (ih () false)
    | false =>
      cases outcome with
      | some outcome => exact .complete outcome (ih () false)
      | none => exact .again (ih () false)

theorem Keeps.mendedAside_eq {held : Bool} {code : Code Unit} (h : code.Keeps held) :
    code.mendedAside held = code := by
  induction h with
  | done => rfl
  | ask request _ ih => simp only [mendedAside, ih]
  | put line _ ih => simp only [mendedAside, ih]
  | sleep ms _ ih => simp only [mendedAside, ih]
  | @complete held outcome next _ ih => cases held <;> simp only [mendedAside, ih] <;> rfl
  | again _ ih => simp only [mendedAside, ih]; rfl

/-- A handle that is held, or one that has been used with an outcome. -/
def handleOf (held : Bool) (outcome : Outcome) : Handle :=
  if held then none else some (some outcome)

end Code

/-- What became of a handle, but for its having been let go of. -/
def Handle.kept : Handle → Handle
  | some none => none
  | handle => handle

namespace Code

theorem mendedCall_delivers (code : Code (Option (Code Unit))) :
    ∀ handle : Handle, (code.mendedCall handle).Delivers handle.kept.isNone := by
  have hend : ∀ work : Option (Code Unit), Delivers false (done (work.map (mendedAside false)))
    | none => .done
    | some work => .start (work.mendedAside_keeps false)
  induction code with
  | done work =>
    rintro (_ | _ | outcome)
    · cases work with
      | none => exact .complete _ (hend none)
      | some work => exact .start (work.mendedAside_keeps true)
    · exact .complete _ (hend work)
    · exact hend work
  | panic message =>
    rintro (_ | _ | outcome)
    · exact .complete _ .done
    · exact .complete _ .done
    · exact .done
  | ask request next ih => exact fun handle => .ask request fun answer => ih answer handle
  | put line next ih => exact fun handle => .put line (ih () handle)
  | sleep ms next ih => exact fun handle => .sleep ms (ih () handle)
  | complete outcome next ih =>
    rintro (_ | _ | used)
    · cases outcome with
      | none => exact ih () (some none)
      | some outcome => exact .complete outcome (ih () (some (some outcome)))
    · exact ih () (some none)
    · cases outcome with
      | none => exact .again (ih () (some (some used)))
      | some outcome => exact .complete outcome (ih () (some (some used)))

theorem Delivers.mendedCall_eq {held : Bool} {code : Code (Option (Code Unit))}
    (h : code.Delivers held) : ∀ used, code.mendedCall (handleOf held used) = code := by
  induction h with
  | done => exact fun _ => rfl
  | @start held work h =>
    intro used
    have hsame := congrArg (fun code => Code.done (some code)) h.mendedAside_eq
    cases held with
    | false => exact hsame
    | true => exact hsame
  | ask request _ ih => exact fun used => by simp only [mendedCall, ih]
  | put line _ ih => exact fun used => by simp only [mendedCall, ih]
  | sleep ms _ ih => exact fun used => by simp only [mendedCall, ih]
  | @complete held outcome next _ ih =>
    intro used
    cases held with
    | false => exact congrArg (Code.complete (some outcome)) (funext fun _ => ih used)
    | true => exact congrArg (Code.complete (some outcome)) (funext fun _ => ih outcome)
  | again _ ih => exact fun used => congrArg (Code.complete none) (funext fun _ => ih used)

section Calls

variable {α β : Type} (scope : Scope) (result : α → β) (panicked : String → β)

theorem inCall_settled (finish : Handle → β → Process) (fail : Handle → String → Process)
    (code : Code α) : ∀ handle, (code.settled result panicked).inCall scope finish fail handle
      = code.inCall scope (fun handle r => finish handle (result r))
        (fun handle message => finish handle (panicked message)) handle := by
  induction code with
  | done r => exact fun _ => rfl
  | panic message => exact fun _ => rfl
  | ask request next ih => exact fun handle => by simp only [settled, inCall, ih]
  | put line next ih => exact fun handle => by simp only [settled, inCall, ih]
  | sleep ms next ih => exact ih ()
  | complete outcome next ih => exact fun handle => ih () _

theorem inPromise_settled (finish : β → Process) (fail : String → Process) (code : Code α) :
    (code.settled result panicked).inPromise scope finish fail
      = code.inPromise scope (fun r => finish (result r))
        fun message => finish (panicked message) := by
  induction code with
  | done r => rfl
  | panic message => rfl
  | ask request next ih => simp only [settled, inPromise, ih]
  | put line next ih => simp only [settled, inPromise, ih]
  | sleep ms next ih => simp only [settled, inPromise, ih]
  | complete outcome next ih => exact ih ()

/-- How a call goes on after a panic does not matter if there is none. -/
theorem Calm.inCall_eq {finish : Handle → α → Process} (fail fail' : Handle → String → Process)
    {code : Code α} (h : code.Calm) :
    ∀ handle, code.inCall scope finish fail handle = code.inCall scope finish fail' handle := by
  induction h with
  | done r => exact fun _ => rfl
  | ask request _ ih => exact fun handle => by simp only [inCall, ih]
  | put line _ ih => exact fun handle => by simp only [inCall, ih]
  | sleep ms _ ih => exact ih
  | complete outcome _ ih => exact fun handle => ih _

end Calls

end Code

namespace Action

/-- The action that says what becomes of its mishaps. One that gave a payload says of it whether it
is a success, as it cannot fail with a text otherwise. -/
def mended : Action → Action
  | plain call => plain fun input => (call input).settled id fun message => .error (.str message)
  | boolean call =>
    plain fun input => (call input).settled
      (fun payload => if payload.isTruthy then .ok payload else .error payload)
      fun message => .error (.str message)
  | promise call =>
    promise fun input => (call input).settled id fun message => .error (.str message)
  | callback call => callback fun input => (call input).mendedCall none

/-- Whether an action never panics, and never lets go of its completion handle unused. -/
def Orderly : Action → Prop
  | plain call => ∀ input, (call input).Calm
  | boolean call => ∀ input, (call input).Calm
  | promise call => ∀ input, (call input).Calm
  | callback call => ∀ input, (call input).Delivers true

theorem mended_orderly (action : Action) : action.mended.Orderly := by
  cases action with
  | plain call | boolean call | promise call => exact fun input => (call input).settled_calm _ _
  | callback call => exact fun input => (call input).mendedCall_delivers none

/-- An action that is in order is called as before. -/
theorem process_mended {action : Action} (h : action.Orderly) (scope : Scope) (input : Value) :
    action.mended.process scope input = action.process scope input := by
  cases action with
  | plain call => simp only [mended, process, (h input).settled_eq]
  | boolean call =>
    have hfinish : ∀ payload : Value, Outcome.ofExcept
        (if payload.isTruthy then .ok payload else .error payload)
          = if payload.isTruthy then .success payload else .failure payload := fun payload => by
      split <;> rfl
    simp only [mended, process, Code.inCall_settled, hfinish]
    exact (h input).inCall_eq scope _ _ none
  | promise call => simp only [mended, process, (h input).settled_eq]
  | callback call =>
    have hsame : (call input).mendedCall none = call input :=
      (h input).mendedCall_eq (.success .null)
    simp only [mended, process, hsame]

end Action

namespace Node

mutual

/-- The tree with every action mended. -/
def mended : Node → Node
  | leaf info path action => leaf info path action.mended
  | sequence info children => sequence info (mendedAll children)
  | selector info children => selector info (mendedAll children)
  | parallel info policy children => parallel info policy (mendedAll children)
  | decorator info d child => decorator info d (mended child)

def mendedAll : List Node → List Node
  | [] => []
  | child :: rest => mended child :: mendedAll rest

end

/-- Whether every action of the tree is in order. -/
def Orderly (tree : Node) : Prop :=
  ∀ position info path action, tree.at? position = some (.leaf info path action) → action.Orderly

theorem mendedAll_eq_map : ∀ children : List Node, mendedAll children = children.map mended
  | [] => rfl
  | child :: rest => by rw [mendedAll, mendedAll_eq_map rest, List.map_cons]

theorem info_mended (tree : Node) : tree.mended.info = tree.info := by
  cases tree <;> rfl

theorem children_mended (tree : Node) : tree.mended.children = tree.children.map mended := by
  cases tree <;> simp only [mended, children, mendedAll_eq_map, List.map_nil, List.map_cons]

/-- The mended tree has the same nodes at the same positions, mended. -/
theorem at?_mended : ∀ (position : List Nat) (tree : Node),
    tree.mended.at? position = (tree.at? position).map mended
  | [], _ => rfl
  | i :: rest, tree => by
    rw [at?, at?, children_mended, List.getElem?_map]
    cases tree.children[i]? with
    | none => rfl
    | some child => exact at?_mended rest child

theorem mended_orderly (tree : Node) : tree.mended.Orderly := by
  intro position info path action hat
  rw [at?_mended, Option.map_eq_some_iff] at hat
  obtain ⟨node, -, hnode⟩ := hat
  cases node with
  | leaf _ _ action =>
    cases hnode
    exact action.mended_orderly
  | _ => cases hnode

end Node

end BehaviorTree
