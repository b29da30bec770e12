import Interpose.Value.Basic

/-!
# Traps

The reasons why evaluation stops: what a primitive or a call finds wrong with its operands.
-/

set_option autoImplicit false

namespace Interpose

/-- Why evaluation stopped. -/
inductive Trap where
  /-- A binary operator does not apply to operands of these types. -/
  | typeMismatch (op : String) (lhs rhs : Ty)
  /-- A unary operator does not apply to an operand of this type. -/
  | unaryTypeMismatch (op : String) (operand : Ty)
  /-- An integer quotient or remainder that does not exist. -/
  | divisionByZero
  /-- A call passed `got` arguments. -/
  | arityMismatch (expected got : Nat)
  | undefinedGlobal (name : String)
  | notCallable (ty : Ty)
  /-- A condition is not a boolean. -/
  | notBoolean (ty : Ty)
  /-- One call more would exceed `limit` nested ones. -/
  | callDepthExceeded (limit : Nat)
deriving Repr, DecidableEq

namespace Trap

def message : Trap → String
  | .typeMismatch op lhs rhs => s!"`{op}` is not defined for ({lhs.text}, {rhs.text})"
  | .unaryTypeMismatch op operand => s!"`{op}` is not defined for {operand.text}"
  | .divisionByZero => "integer division by zero"
  | .arityMismatch expected got => s!"expected {expected} argument(s), got {got}"
  | .undefinedGlobal name => s!"undefined global `{name}`"
  | .notCallable ty => s!"value of type {ty.text} is not callable"
  | .notBoolean ty => s!"branch condition must be Bool, got {ty.text}"
  | .callDepthExceeded limit => s!"maximum call depth of {limit} exceeded"

end Trap

/-- The truth value of a condition. -/
def Value.asBool : Value → Except Trap Bool
  | .bool b => .ok b
  | v => .error (.notBoolean v.typeOf)

end Interpose
