import BehaviorTree.Process

/-!
# The world of a run

What a run changes: the variables, and the list of events that were seen so far.
-/

namespace BehaviorTree

structure World where
  store : Store := {}
  /-- The events so far, latest first. -/
  events : List Event := []

instance : Inhabited World := ⟨{}⟩

namespace World

def emit (world : World) (event : Event) : World :=
  { world with events := event :: world.events }

def ask (world : World) (scope : Scope) (request : Request Unit) : Option Value × World :=
  let (answer, store) := world.store.ask scope request
  (answer, { world with store })

end World

end BehaviorTree
