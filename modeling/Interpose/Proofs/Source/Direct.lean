import Interpose.Proofs.Source.Names
import Interpose.Run.Graph

/-!
# Running a function from its tree

The meaning of a program is given by its tree alone. Expressions are evaluated from left to right
with the callee first, a condition has to be a truth value, and a function that ends without a
return gives back the value of its last expression, or `nothing`.

A name stands for the value that was last assigned to it on the way that the run has taken. If there
is none, it stands for `nothing` where it is possibly bound, and elsewhere for the global of that
name. So the names that are possibly bound are carried along, as the text has them.

Every loop may go `fuel` rounds. A run that ends does so for all large fuel, and one that does not
end has no result whatever the fuel.
-/

set_option autoImplicit false

namespace Interpose.Source

/-- The values of the names that were assigned. -/
abbrev Store := String → Option Value

namespace Store

/-- Nothing was assigned. -/
def empty : Store := fun _ => none

def set (store : Store) (n : String) (x : Value) : Store :=
  fun m => if n = m then some x else store m

/-- The names are assigned in order, as far as both lists go. -/
def setAll (store : Store) : List String → List Value → Store
  | n :: ns, x :: xs => Store.setAll (store.set n x) ns xs
  | _, _ => store

end Store

/-- How statements end: the ones behind them go on, or the function gives back a value. -/
inductive Outcome where
  | next (store : Store)
  | returned (x : Value)

variable {σ : Type}

/-! ## Expressions -/

/-- The value that a name stands for. -/
def valueOf (env : Surroundings σ) (bound : Names) (store : Store) (n : String) : Run σ Value :=
  match store n with
  | some x => return x
  | none => do
    if n ∈ bound then return .nothing
    match env.global (← get) n with
    | some x => return x
    | none => throw (.trap (.undefinedGlobal n))

/-- A condition has to be a truth value. -/
def test (x : Value) : Run σ Bool := Run.ofTrap x.asBool

mutual

/-- The value of an expression. -/
def Expr.eval (env : Surroundings σ) (bound : Names) (store : Store) : Expr → Run σ Value
  | .name n => valueOf env bound store n
  | .lit x => return x
  | .call callee args => do
    let f ← callee.eval env bound store
    let xs ← Expr.evalAll env bound store args
    env.call f xs
  | .choose cond onTrue onFalse => do
    if ← test (← cond.eval env bound store) then onTrue.eval env bound store
    else onFalse.eval env bound store

def Expr.evalAll (env : Surroundings σ) (bound : Names) (store : Store) :
    List Expr → Run σ (List Value)
  | [] => return []
  | e :: es => do
    let x ← e.eval env bound store
    return x :: (← Expr.evalAll env bound store es)

end

/-! ## Statements -/

/-- Goes round while the test holds. -/
def loop (test : Store → Run σ Bool) (body : Store → Run σ Outcome) : Nat → Store → Run σ Outcome
  | 0, _ => .outOfFuel
  | k + 1, store => do
    if ← test store then
      match ← body store with
      | .next store => loop test body k store
      | .returned x => return .returned x
    else return .next store

mutual

/-- What a statement does. -/
def Stmt.exec (env : Surroundings σ) (fuel : Nat) (bound : Names) (store : Store) :
    Stmt → Run σ Outcome
  | .assign _ n e => do return .next (store.set n (← e.eval env bound store))
  | .expr _ e => do
    let _ ← e.eval env bound store
    return .next store
  | .giveBack _ e => do return .returned (← e.eval env bound store)
  | .ifThen _ cond onTrue => do
    if ← test (← cond.eval env bound store) then Stmt.execAll env fuel bound store onTrue
    else return .next store
  | .ifElse _ cond onTrue onFalse => do
    if ← test (← cond.eval env bound store) then Stmt.execAll env fuel bound store onTrue
    else Stmt.execAll env fuel bound store onFalse
  | .whileLoop _ cond body =>
    -- in the loop all that its body assigns is possibly bound
    let inside := Names.union bound (assignedBy body)
    loop (fun store => do test (← cond.eval env inside store))
      (fun store => Stmt.execAll env fuel inside store body) fuel store

/-- What statements do in order. -/
def Stmt.execAll (env : Surroundings σ) (fuel : Nat) (bound : Names) (store : Store) :
    List Stmt → Run σ Outcome
  | [] => return .next store
  | st :: rest => do
    match ← st.exec env fuel bound store with
    | .next store => Stmt.execAll env fuel (st.boundAfter bound) store rest
    | .returned x => return .returned x

end

/-! ## Functions -/

/-- The statements with the value of an expression at their end given back. -/
def givingLast : List Stmt → List Stmt
  | [] => []
  | [.expr line e] => [.giveBack line e]
  | st :: rest => st :: givingLast rest

namespace Function

/-- The parameters, as the names that are possibly bound at the start. -/
def bound (d : Function) : Names := Names.union [] d.params

/-- The names that the function takes from outside. -/
def globals (d : Function) : Names := Stmt.globalsAll d.bound (givingLast d.body)

/-- The function's value for arguments. -/
def run (d : Function) (env : Surroundings σ) (fuel : Nat) (args : List Value) : Run σ Value := do
  match ← Stmt.execAll env fuel d.bound (Store.empty.setAll d.params args) (givingLast d.body) with
  | .next _ => return .nothing
  | .returned x => return x

end Function

end Interpose.Source
