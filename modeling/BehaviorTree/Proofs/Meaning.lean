import BehaviorTree.Process
import BehaviorTree.Proofs.Shape

/-!
# What a definition means

A definition without parallel nodes can be carried out as it stands, without compiling it
(`Definition.interpret`). Variables stay where the definition declares them: a name belongs to the
innermost node around a leaf that lists it, then to the globals, and a name that nobody declares
belongs to the leaf alone (`View.home`). Nothing is searched for at run time but the globals.
-/

namespace BehaviorTree

/-- Where a variable lives: in a frame of the globals, or at the node of a position. -/
inductive Home where
  | outer (frame : FrameId)
  | own (position : List Nat)
deriving DecidableEq

/-- The variables everywhere. -/
abbrev Variables := Home → Table Value

namespace Variables

/-- What stands at a path of one home. -/
def read? (vars : Variables) (home : Home) (path : Path) : Option Value :=
  ((vars home).find? path.head).bind (Value.getAt path.tail)

/-- Puts a value at a path of one home. -/
def write (vars : Variables) (home : Home) (path : Path) (value : Value) : Variables :=
  fun other =>
    if other = home then
      (vars home).alter path.head fun old => Value.putAt value path.tail (old.getD .null)
    else vars other

end Variables

/-- What a leaf sees: itself, the nodes around it from the inside out, and the globals. -/
structure View where
  site : Site
  above : List Site
  globals : List FrameId

namespace View

/-- The home of a variable. -/
def home (view : View) (vars : Variables) (name : String) : Home :=
  match (view.site :: view.above).find? fun site => site.definition.declared.contains name with
  | some site => .own site.position
  | none =>
    match view.globals.find? fun id => (vars (.outer id)).contains name with
    | some id => .outer id
    | none => .own view.site.position

mutual

/-- Answers a request of a leaf. -/
def perform (view : View) : Request Unit → Variables → Option Value × Variables
  | .get path, vars => (vars.read? (view.home vars path.head) path, vars)
  | .set path value, vars => (none, vars.write (view.home vars path.head) path value)
  | .modify path body, vars =>
    match vars.read? (view.home vars path.head) path with
    | none => (none, vars)
    | some old =>
      let ((new, reply), later) := finish view (body old) vars
      (some reply, later.write (view.home vars path.head) path new)
  | .declares name, vars =>
    (some (.bool ((vars (.own view.site.position)).contains name)), vars)
  | .defines name, vars => (some (.bool ((vars (view.home vars name)).contains name)), vars)
  | .names, vars => (some (.list ((vars (.own view.site.position)).names.map .str)), vars)
  | .depth, vars =>
    (some (.int (Int64.ofNat (view.above.length + 1 + view.globals.length))), vars)

/-- Runs the body of a modification to its new value and its reply. -/
def finish (view : View) : Update Unit → Variables → (Value × Value) × Variables
  | .finish value reply, vars => ((value, reply), vars)
  | .ask _ request next, vars =>
    let (answer, vars) := perform view request vars
    finish view (next answer) vars

end

end View

/-- How code ended, the first use of its completion handle, and the variables then. -/
structure Played (α : Type) where
  ending : Except String α
  handle : Handle := none
  vars : Variables

/-- Carries out code of a leaf to its end; waiting takes no time. -/
def Code.play {α : Type} (view : View) : Code α → Variables → Played α
  | done result, vars => { ending := .ok result, vars }
  | panic message, vars => { ending := .error message, vars }
  | ask request next, vars =>
    let (answer, vars) := view.perform request vars
    play view (next answer) vars
  | put _ next, vars => play view (next ()) vars
  | sleep _ next, vars => play view (next ()) vars
  | complete outcome next, vars => { play view (next ()) vars with handle := some outcome }

namespace Action

/-- What comes of a completion handle. -/
def settled : Option Outcome → Outcome
  | some outcome => outcome
  | none => .failure (.str "callback dropped without completing")

/-- The outcome of code that ends with a result or panics. -/
def ended {α : Type} (result : α → Outcome) : Except String α → Outcome
  | .ok value => result value
  | .error message => .failure (.str message)

/-- A call of an action by a leaf. -/
def play (view : View) (input : Value) : Action → Variables → Outcome × Variables
  | plain call, vars =>
    let played := (call input).play view vars
    (ended .ofExcept played.ending, played.vars)
  | boolean call, vars =>
    let played := (call input).play view vars
    (ended (fun payload => if payload.isTruthy then .success payload else .failure payload)
      played.ending, played.vars)
  | promise call, vars =>
    let played := (call input).play view vars
    (ended .ofExcept played.ending, played.vars)
  | callback call, vars =>
    let played := (call input).play view vars
    match played.ending, played.handle with
    | .error _, some (some outcome) => (outcome, played.vars)
    | .error message, _ => (.failure (.str message), played.vars)
    | .ok none, handle => (settled (handle.getD none), played.vars)
    | .ok (some work), none =>
      let after := work.play view played.vars
      (settled (after.handle.getD none), after.vars)
    | .ok (some work), some used => (settled used, (work.play view played.vars).vars)

end Action

/-- What carrying out a definition changes: the variables, and the calls of leaves so far, with
their positions and inputs, latest first. -/
structure Account where
  vars : Variables
  calls : List (List Nat × Value) := []

namespace Account

/-- Before the first run every node has what it declares. -/
def start (d : Definition) (store : Store) : Account where
  vars
    | .outer id => store.frame id
    | .own position =>
      ((d.route position).bind List.head?).elim .empty fun site => site.definition.declared

theorem start_own {d : Definition} {position : List Nat} {site : Site}
    {above : List Site} (h : d.route position = some (site :: above)) (store : Store) :
    (start d store).vars (.own position) = site.definition.declared := by
  simp only [start, h, Option.bind_some, List.head?_cons, Option.elim_some]

def call (view : View) (action : Action) (input : Value) (account : Account) :
    Outcome × Account :=
  let (outcome, vars) := action.play view input account.vars
  (outcome, { vars, calls := (view.site.position, input) :: account.calls })

end Account

namespace Definition

mutual

/-- Carries out a node at a position, under the nodes above it; nothing comes of a node that
lacks a kind or an action, or that is parallel. -/
def interpret (registry : Registry) (globals : List FrameId) (above : List Site)
    (position : List Nat) (d : Definition) (input : Value) (account : Account) :
    Option (Outcome × Account) :=
  match d.kind? with
  | some .action =>
    (d.action? registry).map fun action =>
      account.call ⟨⟨position, d⟩, above, globals⟩ action input
  | some .sequence =>
    have := d.sizeOf_listed_lt
    interpretAll registry globals (⟨position, d⟩ :: above) position true 0 d.listed
      (.success input) account
  | some .selector =>
    have := d.sizeOf_listed_lt
    interpretAll registry globals (⟨position, d⟩ :: above) position false 0 d.listed
      (.failure input) account
  | some .invert =>
    have := d.sizeOf_listed_lt
    (interpretOnly registry globals (⟨position, d⟩ :: above) position d.listed input account).map
      fun (outcome, account) => (outcome.invert, account)
  | some .success =>
    have := d.sizeOf_listed_lt
    (interpretOnly registry globals (⟨position, d⟩ :: above) position d.listed input account).map
      fun (outcome, account) => (.success outcome.payload, account)
  | some .failure =>
    have := d.sizeOf_listed_lt
    (interpretOnly registry globals (⟨position, d⟩ :: above) position d.listed input account).map
      fun (outcome, account) => (.failure outcome.payload, account)
  | some .parallel | none => none
termination_by sizeOf d

/-- Carries out a child; the path of an action calls what is registered there. -/
def interpretChild (registry : Registry) (globals : List FrameId) (above : List Site)
    (position : List Nat) (c : Child Definition) (input : Value) (account : Account) :
    Option (Outcome × Account) :=
  match c with
  | .path path =>
    (registry.get? (Path.ofString path)).map fun action =>
      account.call ⟨⟨position, .ofPath path⟩, above, globals⟩ action input
  | .node d => interpret registry globals above position d input account
termination_by sizeOf c

/-- Carries out the only child of a decorator. -/
def interpretOnly (registry : Registry) (globals : List FrameId) (above : List Site)
    (position : List Nat) (cs : List (Child Definition)) (input : Value) (account : Account) :
    Option (Outcome × Account) :=
  match cs with
  | [c] => interpretChild registry globals above (position ++ [0]) c input account
  | _ => none
termination_by sizeOf cs

/-- Carries out children from an index on, each on the payload of the one before, for as long as
the outcome is a success or for as long as it is a failure. -/
def interpretAll (registry : Registry) (globals : List FrameId) (above : List Site)
    (position : List Nat) (whileSuccess : Bool) (index : Nat) (cs : List (Child Definition))
    (outcome : Outcome) (account : Account) : Option (Outcome × Account) :=
  match cs with
  | [] => some (outcome, account)
  | c :: rest =>
    if outcome.isSuccess = whileSuccess then do
      let (outcome, account) ←
        interpretChild registry globals above (position ++ [index]) c outcome.payload account
      interpretAll registry globals above position whileSuccess (index + 1) rest outcome account
    else some (outcome, account)
termination_by sizeOf cs

end

/-- Carries out a definition on one input after the other. -/
def interpretRuns (registry : Registry) (globals : List FrameId) (d : Definition) :
    List Value → Account → Option (List Outcome × Account)
  | [], account => some ([], account)
  | input :: rest, account => do
    let (outcome, account) ← d.interpret registry globals [] [] input account
    let (outcomes, account) ← interpretRuns registry globals d rest account
    return (outcome :: outcomes, account)

/-- A child is carried out like the node that it stands for. -/
theorem interpretChild_eq (registry : Registry) (globals : List FrameId) (above : List Site)
    (position : List Nat) (c : Child Definition) (input : Value) (account : Account) :
    interpretChild registry globals above position c input account
      = interpret registry globals above position (ofChild c) input account := by
  cases c with
  | node d => rw [interpretChild, ofChild]
  | path path =>
    rw [interpretChild, ofChild, interpret, (ofPath_hasKind path).kind?_eq]
    rfl

end Definition

end BehaviorTree
