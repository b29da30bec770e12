import Interpose.Graph.Basic

/-!
# Errors of graphs

What an edit or a check finds wrong. A violation is a rule of block graphs that is broken or would
be by the edit; the other errors name something that is not there.
-/

set_option autoImplicit false

namespace Interpose

/-- A broken rule of block graphs. -/
inductive Violation where
  /-- The block has no branches. -/
  | noTerminator (b : BlockId)
  /-- The last branch of the block may not be taken. -/
  | openEnd (b : BlockId)
  /-- A branch of the block that is always taken has branches after it. -/
  | earlyEnd (b : BlockId)
  /-- A branch of the block does not pass one argument for each parameter. -/
  | unbalanced (br : Branch) (b : BlockId) (expected : Nat)
  /-- The new branch of the block does not pass one argument for each parameter. -/
  | unbalancedEdit (b : BlockId) (got expected : Nat)
  /-- The block is closed already. -/
  | closed (b : BlockId)
  /-- The variable is bound nowhere any more. -/
  | dangling (v : Variable)
  /-- On some way to its use in the block the variable is not bound. -/
  | notDominated (v : Variable) (b : BlockId)
  /-- The variable is bound at or after its use in the block. -/
  | usedEarly (v : Variable) (b : BlockId)
  /-- The variable is a parameter. -/
  | notStatement (v : Variable)
  /-- The block has only `count` parameters. -/
  | paramPosition (position : Nat) (b : BlockId) (count : Nat)
  /-- The variable is still read. -/
  | stillUsed (v : Variable)
  /-- A replacement is a variable. -/
  | variableReplacement
  /-- The variable is bound at or after the place of the pass. -/
  | aheadOfPass (v : Variable)
  /-- The variable would stand for itself. -/
  | selfSubstitution (v : Variable)
  /-- A condition cannot be this operand. -/
  | conditionReplaced (c : Variable) (op : Operand)
  /-- The pass deleted the variable and left a use of it. -/
  | deletedInPass (v : Variable)

def Violation.message : Violation → String
  | .noTerminator b => s!"block {b.text} has no terminator"
  | .openEnd b => s!"block {b.text} ends in a conditional branch"
  | .earlyEnd b => s!"block {b.text} has an unconditional branch before its last branch"
  | .unbalanced br b expected =>
    s!"`{br.text}` in block {b.text} passes {br.args.length} argument(s), expected {expected}"
  | .unbalancedEdit b got expected =>
    s!"branch from block {b.text} passes {got} argument(s), target expects {expected}"
  | .closed b => s!"block {b.text} already ends in an unconditional branch"
  | .dangling v => s!"dangling reference to deleted variable {v.text}"
  | .notDominated v b => s!"use of {v.text} in block {b.text} is not dominated by its definition"
  | .usedEarly v b => s!"{v.text} is used before its definition in block {b.text}"
  | .notStatement v => s!"{v.text} is a block parameter, not a statement"
  | .paramPosition position b count =>
    s!"parameter position {position} out of range for block {b.text} with {count} parameter(s)"
  | .stillUsed v => s!"{v.text} is still referenced"
  | .variableReplacement => "rewrite_refs cannot introduce variable operands"
  | .aheadOfPass v => s!"use of {v.text} before its definition in the pipe"
  | .selfSubstitution v => s!"{v.text} substituted by itself"
  | .conditionReplaced c op => s!"branch condition {c.text} substituted by non-variable {op.text}"
  | .deletedInPass v => s!"{v.text} was deleted but is still referenced"

/-- What is wrong with a graph, or with a request for one. -/
inductive GraphError where
  | structural (rule : Violation)
  | unknownVariable (v : Variable)
  | unknownBlock (b : BlockId)
  /-- No function body answers a call of this signature. -/
  | noGraph (sig : Signature)
  /-- The hook has no rule for this signature. -/
  | noRule (hook : String) (sig : Signature)
  /-- An edit of a pass named another statement than the one it stands at. -/
  | offCursor (current : Option Variable) (got : Variable)

def GraphError.message : GraphError → String
  | .structural rule => s!"structural error: {rule.message}"
  | .unknownVariable v => s!"variable {v.text} is not defined"
  | .unknownBlock b => s!"block {b.text} does not exist"
  | .noGraph sig => s!"no IR available for {sig.text}"
  | .noRule hook sig => s!"hook `{hook}` has no rule matching {sig.text}"
  | .offCursor current got =>
    let place := (current.map Variable.text).getD "nothing"
    s!"edit relative to {got.text} while visiting {place}"

end Interpose
