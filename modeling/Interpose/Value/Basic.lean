import Interpose.Number.Layout

/-!
# Values and their types

Six kinds of value flow through a program. Functions and hooks are referred to by number, and each
of them has a type of its own, so that the types of a call's arguments can pin down the callee.
-/

set_option autoImplicit false

namespace Interpose

/-- A registered function. -/
structure FuncId where
  index : Nat
deriving Repr, DecidableEq, Inhabited

/-- A registered hook. -/
structure HookId where
  index : Nat
deriving Repr, DecidableEq, Inhabited

def FuncId.text (f : FuncId) : String := s!"fn#{f.index}"

def HookId.text (h : HookId) : String := s!"hook#{h.index}"

/-- A type tag. `any` is the tag of what nothing is known about; no value has it. -/
inductive Ty where
  | any
  | nothing
  | bool
  | int
  | float
  | func (f : FuncId)
  | hook (h : HookId)
deriving Repr, DecidableEq, Inhabited

namespace Ty

def isNumber : Ty → Bool
  | .int | .float => true
  | _ => false

def isCallable : Ty → Bool
  | .func _ | .hook _ => true
  | _ => false

def text : Ty → String
  | .any => "Any"
  | .nothing => "Nothing"
  | .bool => "Bool"
  | .int => "Int"
  | .float => "Float"
  | .func f => s!"typeof({f.text})"
  | .hook h => s!"typeof({h.text})"

end Ty

/-- A value. `nothing` also fills the parameters that no branch has passed yet. -/
inductive Value where
  | nothing
  | bool (b : Bool)
  | int (n : Int64)
  | float (x : Float)
  | func (f : FuncId)
  | hook (h : HookId)
deriving Inhabited

namespace Value

/-- The type of a value. -/
def typeOf : Value → Ty
  | .nothing => .nothing
  | .bool _ => .bool
  | .int _ => .int
  | .float _ => .float
  | .func f => .func f
  | .hook h => .hook h

def isCallable : Value → Bool
  | .func _ | .hook _ => true
  | _ => false

/-- Equality of values of one kind; values of two kinds differ. Floats compare as numbers: the two
zeros are equal, and a value that is not a number differs from itself. -/
def same : Value → Value → Bool
  | .nothing, .nothing => true
  | .bool a, .bool b => a == b
  | .int a, .int b => a == b
  | .float a, .float b => a == b
  | .func a, .func b => a == b
  | .hook a, .hook b => a == b
  | _, _ => false

instance : BEq Value := ⟨same⟩

/-- Floats inside values are written with a point whatever their size, and whole ones with all their
digits, so that they never look like integers. -/
def floatLayout : Number.Layout := ⟨none, true⟩

def text : Value → String
  | .nothing => "nothing"
  | .bool b => if b then "true" else "false"
  | .int n => toString n.toInt
  | .float x => floatLayout.text x
  | .func f => f.text
  | .hook h => h.text

end Value

end Interpose
