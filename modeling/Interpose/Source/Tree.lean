import Interpose.Value.Basic

/-!
# Syntax trees

A program is a list of functions. Operators are not part of the tree: `a * b` is a call of the name
`*`, so whoever rebinds that name rebinds the operator.
-/

set_option autoImplicit false

namespace Interpose.Source

/-- An expression. -/
inductive Expr where
  | name (n : String)
  | lit (v : Value)
  | call (callee : Expr) (args : List Expr)
  /-- `cond ? onTrue : onFalse` -/
  | choose (cond onTrue onFalse : Expr)
deriving Inhabited

/-- The call of an operator, which is the name of a global function. -/
def Expr.operator (op : String) (args : List Expr) : Expr := .call (.name op) args

/-- A statement and the line on which it starts. -/
inductive Stmt where
  | assign (line : Nat) (name : String) (value : Expr)
  | ifThen (line : Nat) (cond : Expr) (onTrue : List Stmt)
  | ifElse (line : Nat) (cond : Expr) (onTrue onFalse : List Stmt)
  | whileLoop (line : Nat) (cond : Expr) (body : List Stmt)
  | giveBack (line : Nat) (value : Expr)
  | expr (line : Nat) (value : Expr)
deriving Inhabited

namespace Stmt

def line : Stmt → Nat
  | .assign l _ _ | .ifThen l _ _ | .ifElse l _ _ _ | .whileLoop l _ _ | .giveBack l _
  | .expr l _ => l

/-- The expression that the statement evaluates itself: its value, or its condition. -/
def subject : Stmt → Expr
  | .assign _ _ e | .ifThen _ e _ | .ifElse _ e _ _ | .whileLoop _ e _ | .giveBack _ e
  | .expr _ e => e

end Stmt

/-- A function, with the line of its first word. -/
structure Function where
  name : String
  params : List String
  body : List Stmt
  line : Nat
deriving Inhabited

end Interpose.Source
