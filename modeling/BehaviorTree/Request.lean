import BehaviorTree.Value

/-!
# Requests to a scope

Whoever uses a scope asks it one thing at a time. A modification carries a body, which may ask
scopes on its own before it says what to put back.
-/

namespace BehaviorTree

mutual

/-- What can be asked of a scope. Every request is answered by an optional value. The body of a
modification names the scopes that it asks by handles. -/
inductive Request (Handle : Type) where
  /-- The value at a path. -/
  | get (path : Path)
  /-- Puts a value at a path. -/
  | set (path : Path) (value : Value)
  /-- Runs a body on a copy of the value at a path and puts back what the body leaves. -/
  | modify (path : Path) (body : Value → Update Handle)
  /-- Whether the innermost frame declares a name. -/
  | declares (name : String)
  /-- Whether any frame of the chain declares a name. -/
  | defines (name : String)
  /-- The names that the innermost frame declares. -/
  | names
  /-- The number of frames of the chain. -/
  | depth

/-- The body of a modification: requests of its own, then the new value and a reply. -/
inductive Update (Handle : Type) where
  | finish (value : Value) (reply : Value)
  | ask (handle : Handle) (request : Request Handle) (next : Option Value → Update Handle)

end

end BehaviorTree
