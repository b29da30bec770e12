import Interpose.Number.Remainder
import Interpose.Value.Trap

/-!
# Primitive operators

Eleven binary and two unary operators on values. Two integers stay integers and wrap around at
sixty-four bits; an integer beside a float is first rounded to the nearest float. Quotient and
remainder of integers truncate toward zero and exist on the same pairs: neither for a divisor of
zero nor where the quotient would not fit. Only equality is defined on all values.
-/

set_option autoImplicit false

namespace Interpose

/-- The binary operators, in the order in which they are registered. -/
inductive BinaryOp where
  | add | sub | mul | div | rem | lt | le | gt | ge | eq | ne
deriving Repr, DecidableEq

/-- The unary operators, in the order in which they are registered. -/
inductive UnaryOp where
  | neg | not
deriving Repr, DecidableEq

/-- Two numbers of one kind. -/
inductive NumberPair where
  | ints (a b : Int64)
  | floats (a b : Float)

/-- An integer as the nearest float. -/
def floatOfInt (n : Int64) : Float := Float.ofInt n.toInt

/-- Two operands brought to one kind of number, if both are numbers. -/
def NumberPair.of? : Value → Value → Option NumberPair
  | .int a, .int b => some (.ints a b)
  | .int a, .float b => some (.floats (floatOfInt a) b)
  | .float a, .int b => some (.floats a (floatOfInt b))
  | .float a, .float b => some (.floats a b)
  | _, _ => none

/-- The least integer value. -/
def leastInt : Int64 := Int64.minValue

/-- The pairs of integers that have a quotient. -/
def hasQuotient (a b : Int64) : Bool := b != 0 && !(a == leastInt && b == -1)

namespace BinaryOp

def all : List BinaryOp := [.add, .sub, .mul, .div, .rem, .lt, .le, .gt, .ge, .eq, .ne]

/-- The name under which the operator is registered. -/
def name : BinaryOp → String
  | .add => "+" | .sub => "-" | .mul => "*" | .div => "/" | .rem => "%"
  | .lt => "<" | .le => "<=" | .gt => ">" | .ge => ">=" | .eq => "==" | .ne => "!="

/-- The operator on two integers. -/
def onInts (op : BinaryOp) (a b : Int64) : Except Trap Value :=
  match op with
  | .add => .ok (.int (a + b))
  | .sub => .ok (.int (a - b))
  | .mul => .ok (.int (a * b))
  | .div => if hasQuotient a b then .ok (.int (a / b)) else .error .divisionByZero
  | .rem => if hasQuotient a b then .ok (.int (a % b)) else .error .divisionByZero
  | .lt => .ok (.bool (a < b))
  | .le => .ok (.bool (a ≤ b))
  | .gt => .ok (.bool (b < a))
  | .ge => .ok (.bool (b ≤ a))
  | .eq => .ok (.bool (a == b))
  | .ne => .ok (.bool (!(a == b)))

/-- The operator on two floats. -/
def onFloats (op : BinaryOp) (a b : Float) : Value :=
  match op with
  | .add => .float (a + b)
  | .sub => .float (a - b)
  | .mul => .float (a * b)
  | .div => .float (a / b)
  | .rem => .float (Number.remainder a b)
  | .lt => .bool (a < b)
  | .le => .bool (a ≤ b)
  | .gt => .bool (b < a)
  | .ge => .bool (b ≤ a)
  | .eq => .bool (a == b)
  | .ne => .bool (!(a == b))

/-- The operator on operands that are not two numbers: they can only be compared for equality. -/
def onOthers (op : BinaryOp) (a b : Value) : Except Trap Value :=
  match op with
  | .eq => .ok (.bool (a == b))
  | .ne => .ok (.bool (!(a == b)))
  | op => .error (.typeMismatch op.name a.typeOf b.typeOf)

def apply (op : BinaryOp) (a b : Value) : Except Trap Value :=
  match NumberPair.of? a b with
  | some (.ints m n) => op.onInts m n
  | some (.floats x y) => .ok (op.onFloats x y)
  | none => op.onOthers a b

/-- Two integers meet the operator on integers. -/
@[simp] theorem apply_int (op : BinaryOp) (a b : Int64) :
    op.apply (.int a) (.int b) = op.onInts a b := rfl

end BinaryOp

namespace UnaryOp

def all : List UnaryOp := [.neg, .not]

/-- The name under which the operator is registered. -/
def name : UnaryOp → String
  | .neg => "neg"
  | .not => "!"

def apply : UnaryOp → Value → Except Trap Value
  | .neg, .int n => .ok (.int (-n))
  | .neg, .float x => .ok (.float (-x))
  | .not, .bool b => .ok (.bool (!b))
  | op, v => .error (.unaryTypeMismatch op.name v.typeOf)

end UnaryOp

/-- An operator of either arity. -/
inductive Primitive where
  | binary (op : BinaryOp)
  | unary (op : UnaryOp)
deriving Repr, DecidableEq

namespace Primitive

/-- All operators, in the order in which they are registered. -/
def all : List Primitive := BinaryOp.all.map .binary ++ UnaryOp.all.map .unary

def name : Primitive → String
  | .binary op => op.name
  | .unary op => op.name

def arity : Primitive → Nat
  | .binary _ => 2
  | .unary _ => 1

/-- The operator called with a list of arguments. -/
def apply : Primitive → List Value → Except Trap Value
  | .binary op, [a, b] => op.apply a b
  | .unary op, [a] => op.apply a
  | p, args => .error (.arityMismatch p.arity args.length)

end Primitive

end Interpose
