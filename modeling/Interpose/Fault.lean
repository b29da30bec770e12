import Interpose.Raised
import Interpose.Source.Token
import Interpose.Value.Trap
import Interpose.Graph.Error

/-!
# Faults

Everything that can end a call or a request with an error.
-/

set_option autoImplicit false

namespace Interpose

/-- Why a call or a request failed. -/
inductive Fault where
  | graph (e : GraphError)
  /-- A graph that was to be compiled is not in order. -/
  | unverified (e : GraphError)
  | trap (t : Trap)
  | source (e : Source.SourceError)
  /-- A native, a transform or a script has raised this. -/
  | raised (e : Raised)
  | unknownFunction (f : FuncId)
  | unknownHook (h : HookId)
  /-- A definition has the name of a hook. -/
  | boundToHook (name : String)
  /-- Every branch of the block has a condition, and each was true. -/
  | noBranch (b : BlockId)
  /-- A return passes nothing. -/
  | emptyReturn
  /-- A run refers to a variable that the graph never handed out. Such a run does not fail, it
  breaks down: an index is out of range, and nothing that called it goes on. Here it is a fault with
  a message of its own, which a native that made the call gets to see and may put aside. Only graphs
  that are compiled unchecked come to it. -/
  | noSlot (v : Variable)
  /-- A definition has a name that stands for a function that does not exist. This is a breakdown
  too, and as a fault it has a message of its own and can be put aside. It takes a value that names
  a function which was never registered. -/
  | unregistered (name : String) (f : FuncId)

namespace Fault

/-! What natives, transforms and scripts raise. -/

@[match_pattern] def custom (text : String) : Fault := .raised (.custom text)

@[match_pattern] def noRegister (name : String) : Fault := .raised (.noRegister name)

@[match_pattern] def nothingVisited : Fault := .raised .nothingVisited

@[match_pattern] def notFunction (v : Value) : Fault := .raised (.notFunction v)

def message : Fault → String
  | .graph e => e.message
  | .unverified e => s!"IR failed verification: {e.message}"
  | .trap t => t.message
  | .source e => e.message
  | .raised e => e.message
  | .unknownFunction f => s!"no function with id {f.text}"
  | .unknownHook h => s!"no hook with id {h.text}"
  | .boundToHook name => s!"`{name}` is bound to a hook and cannot be redefined"
  | .noBranch b => s!"block {b.text} has no branch to take"
  | .emptyReturn => "return branch without a value"
  | .noSlot v => s!"no slot for {v.text}"
  | .unregistered name f => s!"`{name}` is bound to {f.text}, which does not exist"

end Fault

end Interpose
