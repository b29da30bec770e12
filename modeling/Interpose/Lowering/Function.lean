import Interpose.Lowering.Draft

/-!
# From a function to its graph

Lowering goes through the statements in order and emits straight-line statements into the current
block. Conditionals and loops open blocks:

    if c { a } else { b }          while c { body }

      0: br 2 unless %c              0: br 1 (start ...)
         br 1                        1: (carried ...)         head
      1: a; br 3 (a's ...)              br 3 unless %c
      2: b; br 3 (b's ...)              br 2
      3: (merged ...)                2: body; br 1 (new ...)
                                     3:                       exit

The first parameter of the entry is the function itself; its declared parameters follow. These, the
parameters of joins and those of loop heads are the only ones.

Which names a join or a loop has to hand on is decided by what is read later. Inside a loop, later
also means the next round.
-/

set_option autoImplicit false

namespace Interpose

open Source Drafting

/-! ## Expressions -/

mutual

/-- The operand that holds the value of an expression, which stands on a line. -/
def lowerExpr (line : Nat) : Expr → Drafting Operand
  | .name n => return (← get).env.resolve n
  | .lit v => return .const v
  | .call callee args => do
    let callee ← lowerExpr line callee
    let args ← lowerExprs line args
    return .var (← emit (.plain (.call callee args)) line)
  | .choose cond onTrue onFalse => do
    let c ← condition (← lowerExpr line cond) line
    let (trueBlock, falseBlock) ← fork c
    modify ({ · with block := trueBlock })
    let first ← edge (some (← lowerExpr line onTrue))
    modify ({ · with block := falseBlock })
    let second ← edge (some (← lowerExpr line onFalse))
    -- expressions bind no names, so the value is all that the two ways differ in
    return (← join [first, second] []).getD (.const .nothing)

/-- The operands of expressions, evaluated in order. -/
def lowerExprs (line : Nat) : List Expr → Drafting (List Operand)
  | [] => return []
  | e :: es => do
    let op ← lowerExpr line e
    return op :: (← lowerExprs line es)

end

/-! ## Statements -/

/-- The names that a loop hands from round to round: those it assigns and that are read in it or
after it. -/
def carriedNames (body : List Stmt) (live : Names) : Names :=
  (assignedBy body).filter live.contains

/-- Opens the head of a loop with a parameter for every carried name, and goes there. -/
def enterLoop (carried : Names) : Drafting BlockId := do
  let before ← get
  let head ← openBlock
  let env ← carried.foldlM (fun (env : Bindings) n => do return env.bind n (.var (← param head)))
      before.env
  branch before.block head (carried.map before.env.passed)
  enter head env
  return head

mutual

/-- Adds a statement. `live` are the names that are read after it. -/
def lowerStmt (live : Names) : Stmt → Drafting Unit
  | .assign line name e => do
    assign name (← lowerExpr line e)
  | .expr line e => do
    let _ ← lowerExpr line e
  | .giveBack line e => do
    leave (← lowerExpr line e)
  | .ifThen line cond onTrue => do
    let c ← condition (← lowerExpr line cond) line
    let before ← get
    let trueBlock ← openBlock
    enter trueBlock before.env
    lowerBody live onTrue
    let skip : Edge := ⟨before.block, before.env, none, some (c, trueBlock)⟩
    let _ ← join (skip :: (← edge?)) live
  | .ifElse line cond onTrue onFalse => do
    let c ← condition (← lowerExpr line cond) line
    let env := (← get).env
    let (trueBlock, falseBlock) ← fork c
    enter trueBlock env
    lowerBody live onTrue
    let first ← edge?
    enter falseBlock env
    lowerBody live onFalse
    let second ← edge?
    let _ ← join (first ++ second) live
  | .whileLoop line cond body => do
    -- a name read anywhere in the loop may be read again in the next round
    let inside := Names.union (Names.union cond.reads (readsOf body)) live
    let carried := carriedNames body inside
    let head ← enterLoop carried
    let c ← condition (← lowerExpr line cond) line
    let env := (← get).env
    let (bodyBlock, exit) ← fork c
    enter bodyBlock env
    lowerBody inside body
    let d ← get
    if !d.closed then branch d.block head (carried.map d.env.passed)
    enter exit env

/-- Adds statements in order, up to one that returns on every way. `live` are the names that are
read after them. -/
def lowerBody (live : Names) : List Stmt → Drafting Unit
  | [] => return
  | st :: rest => do
    if (← get).closed then return
    lowerStmt (Names.union (readsOf rest) live) st
    lowerBody live rest

end

/-! ## Functions -/

/-- The statements before a function's last expression, and that expression, whose value is
returned. A body that ends in another way returns `nothing` at its end. -/
def splitResult (body : List Stmt) : List Stmt × Option (Nat × Expr) :=
  match body.getLast? with
  | some (.expr line e) => (body.dropLast, some (line, e))
  | _ => (body, none)

/-- Adds the entry's parameters. -/
def lowerParams (names : List String) : Drafting Unit := do
  let _ ← param .entry
  names.forM fun n => do assign n (.var (← param .entry))

/-- Adds the body and the return at its end. -/
def lowerWhole (body : List Stmt) : Drafting Unit := do
  let (before, result) := splitResult body
  lowerBody ((result.map (·.2.reads)).getD []) before
  if (← get).closed then return
  match result with
  | some (line, e) => leave (← lowerExpr line e)
  | none => leave (.const .nothing)

/-- The graph of a function that stands in a file. -/
def lowerFunction (f : Source.Function) (file : String) : Except GraphError Graph := do
  let start : Draft := ⟨.empty, file, .entry, [], false⟩
  let ((), d) ← (do lowerParams f.params; lowerWhole f.body : Drafting Unit).run start
  return d.graph

/-- The graph of a function, marked with where it comes from. -/
def lower (p : Provenance) : Except GraphError Graph := do
  return { ← lowerFunction p.definition p.file with provenance := some p }

end Interpose
