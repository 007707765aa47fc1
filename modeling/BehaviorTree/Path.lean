/-!
# Dotted paths

A path is split at every dot, so it has at least one segment and may have empty ones. Two paths
are told apart by their segments.
-/

namespace BehaviorTree

/-- The segments of a dotted path: one, and then the rest. -/
structure Path where
  head : String
  tail : List String
deriving DecidableEq, Inhabited

namespace Path

def ofString (text : String) : Path :=
  match text.toList.splitOn '.' with
  | [] => ⟨"", []⟩
  | segment :: rest => ⟨String.ofList segment, rest.map String.ofList⟩

def segments (path : Path) : List String :=
  path.head :: path.tail

instance : Coe String Path := ⟨ofString⟩

end Path

end BehaviorTree
