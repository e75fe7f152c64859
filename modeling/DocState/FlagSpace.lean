import DocState.Text

/-!
# The namespaces of flags

A flag is a bool or a toggle. These are separate namespaces: a bool and a toggle may share a name.
-/

namespace DocState

/-- The namespace of a flag. -/
inductive FlagSpace
  | bool
  | toggle
deriving DecidableEq, Repr

/-- How messages call a flag of this namespace. -/
def FlagSpace.text : FlagSpace → Text
  | .bool => "bool".toList
  | .toggle => "toggle".toList

end DocState
