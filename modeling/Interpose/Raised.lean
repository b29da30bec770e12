import Interpose.Value.Basic

/-!
# Errors from outside

Natives, transforms and the scripts that drive a host raise errors of their own. The host does not
look into them: it hands them on to whoever made the call.
-/

set_option autoImplicit false

namespace Interpose

/-- An error that does not come from the host. -/
inductive Raised where
  /-- An error that a native or a transform raised on its own account. -/
  | custom (text : String)
  /-- A script refers to a graph that was never stored. -/
  | noRegister (name : String)
  /-- A script means the statement that an edit is made at, and there is none. -/
  | nothingVisited
  /-- A script means a function, and this is none. -/
  | notFunction (v : Value)

def Raised.message : Raised → String
  | .custom text => text
  | .noRegister name => s!"no register `{name}`"
  | .nothingVisited => "no statement is visited"
  | .notFunction v => s!"{v.text} is not a function"

end Interpose
