import Interpose.Graph.Edit
import Interpose.InPlace

/-!
# Edits made in place

The edits of a graph as calls on one graph that stays where it is. The order of checks and changes
in each of them is what is written down here. What an edit comes to altogether is said in
`Graph.Edit`.

Operands are replaced in two passes. The first asks about the operands and notes where each
replacement goes. The second writes the replacements down, one by one, by the places noted.
-/

set_option autoImplicit false

namespace Interpose

namespace InPlace

/-! ## Single steps -/

/-- Changes one block. -/
def onBlock (b : BlockId) (f : Block → Block) : InPlace Graph Unit := modify (·.modifyBlock b f)

/-- Hands out a variable, with its site. -/
def allocate (site : Site) : InPlace Graph Variable :=
  modifyGet fun g => (g.fresh, { g with sites := g.sites.push site })

/-- Writes down another site for a variable. -/
def place (v : Variable) (site : Site) : InPlace Graph Unit :=
  modify fun g => { g with sites := g.sites.setIfInBounds v.index site }

/-- Writes down the sites of variables by their positions, from position `start` on. -/
def placeFrom (start : Nat) (site : Nat → Site) (vars : List Variable) : InPlace Graph Unit :=
  ((vars.drop start).zipIdx start).forM fun (v, i) => place v (site i)

/-! ## Running calls -/

section Running

variable {g : Graph}

@[simp] theorem on_onBlock (b : BlockId) (f : Block → Block) :
    (onBlock b f).on g = (.ok (), g.modifyBlock b f) := rfl

@[simp] theorem on_allocate (site : Site) :
    (allocate site).on g = (.ok g.fresh, { g with sites := g.sites.push site }) := rfl

@[simp] theorem on_place (v : Variable) (site : Site) :
    (place v site).on g = (.ok (), { g with sites := g.sites.setIfInBounds v.index site }) := rfl

@[simp] theorem on_placeFrom (start : Nat) (site : Nat → Site) (vars : List Variable) :
    (placeFrom start site vars).on g
      = (.ok (), { g with sites := Graph.number site start (vars.drop start) g.sites }) := by
  rw [placeFrom]
  generalize vars.drop start = vars
  induction vars generalizing g start with
  | nil => rfl
  | cons v vars ih =>
    rw [List.zipIdx_cons, on_forM_cons, on_bind, on_place]
    exact ih (start + 1)

end Running

/-! ## Blocks and parameters -/

def addBlock : InPlace Graph BlockId := modifyGet fun g => (g.addBlock.2, g.addBlock.1)

def addParamAt (b : BlockId) (position : Nat) (ty : Ty) (default : Operand) :
    InPlace Graph Variable := do
  let block ← ask (·.block b)
  ask (·.checkOperand default)
  let count := block.params.length
  if count < position then throw (.structural (.paramPosition position b count))
  let v ← allocate (.param b position)
  onBlock b fun block => { block with params := block.params.insertIdx position (v, ty) }
  -- the new parameter has its site already
  placeFrom (position + 1) (.param b) (((← get).block? b).getD .empty).paramVars
  modify fun g =>
    { g with blocks := g.blocks.map fun block =>
        { block with branches := block.branches.map (·.withArgument b position default) } }
  return v

def addParamWith (b : BlockId) (ty : Ty) (default : Operand) : InPlace Graph Variable := do
  let block ← ask (·.block b)
  addParamAt b block.params.length ty default

def addParam (b : BlockId) (ty : Ty) : InPlace Graph Variable := addParamWith b ty (.const .nothing)

/-! ## Statements -/

def insertAt (b : BlockId) (position : Nat) (s : Statement) : InPlace Graph Variable := do
  ask (·.checkStatement b position s)
  let v ← allocate (.statement b position)
  onBlock b fun block => { block with body := block.body.insertIdx position (v, s) }
  placeFrom (position + 1) (.statement b) (((← get).block? b).getD .empty).bodyVars
  return v

def pushTo (b : BlockId) (s : Statement) : InPlace Graph Variable := do
  let block ← ask (·.block b)
  insertAt b block.body.length s

def push (s : Statement) : InPlace Graph Variable := do
  let g ← get
  pushTo ⟨g.blocks.size - 1⟩ s

def prependTo (b : BlockId) (s : Statement) : InPlace Graph Variable := do
  let _ ← ask (·.block b)
  insertAt b 0 s

def prepend (s : Statement) : InPlace Graph Variable := prependTo .entry s

def insertBefore (v : Variable) (s : Statement) : InPlace Graph Variable := do
  let (b, i) ← ask (·.statementSite v)
  insertAt b i s

def insertAfter (v : Variable) (s : Statement) : InPlace Graph Variable := do
  let (b, i) ← ask (·.statementSite v)
  insertAt b (i + 1) s

def set (v : Variable) (s : Statement) : InPlace Graph Statement := do
  let (b, i) ← ask (·.statementSite v)
  ask (·.checkStatement b i s)
  let old := (← get).statementAt b i
  onBlock b fun block => { block with body := block.body.modify i fun e => (e.1, s) }
  return old

def delete (v : Variable) : InPlace Graph Statement := do
  let (b, i) ← ask (·.statementSite v)
  if (← get).isUsed v then throw (.structural (.stillUsed v))
  let old := (← get).statementAt b i
  onBlock b fun block => { block with body := block.body.eraseIdx i }
  placeFrom i (.statement b) (((← get).block? b).getD .empty).bodyVars
  place v .deleted
  return old

/-! ## Operands -/

end InPlace

/-- The operation with another operand in one of its places, which are counted from the callee. -/
def Operation.replaceSlot (e : Operation) (slot : Nat) (new : Operand) : Operation :=
  match e, slot with
  | .call _ args, 0 => .call new args
  | .call callee args, k + 1 => .call callee (args.set k new)
  | .operand _, 0 => .operand new
  | .operand op, _ + 1 => .operand op

/-- A replacement, with the place that it goes to: an operand of a statement or a branch of a
block. -/
structure Replacement where
  block : Nat
  part : Nat
  slot : Nat
  new : Operand

namespace Replacement

/-- The statement with the replacement, and its variable. -/
def onStatement (r : Replacement) (e : Variable × Statement) : Variable × Statement :=
  (e.1, { e.2 with operation := e.2.operation.replaceSlot r.slot r.new })

/-- The branch with the replacement. -/
def onBranch (r : Replacement) (br : Branch) : Branch :=
  { br with args := br.args.set r.slot r.new }

/-- The block with the replacement in a statement. -/
def inBody (r : Replacement) (block : Block) : Block :=
  { block with body := block.body.modify r.part r.onStatement }

/-- The block with the replacement in a branch. -/
def inBranches (r : Replacement) (block : Block) : Block :=
  { block with branches := block.branches.modify r.part r.onBranch }

variable {m : Type → Type} [Monad m] (f : Operand → m (Option Operand))

/-- What is to stand in the place of an operand, if anything. A variable is not asked about. -/
def answer : Operand → m (Option Operand)
  | .var _ => return none
  | op => f op

/-- Asks about the operands of one statement or branch, from place `slot` on. -/
def find (block part slot : Nat) : List Operand → m (List Replacement)
  | [] => return []
  | op :: ops => do
    let new ← answer f op
    let rest ← find block part (slot + 1) ops
    return (new.map fun new => ⟨block, part, slot, new⟩).toList ++ rest

/-- Asks about the operands of statements or branches, the first of them being number `part`. -/
def findInParts (block part : Nat) : List (List Operand) → m (List Replacement)
  | [] => return []
  | ops :: parts => do
    let found ← find f block part 0 ops
    return found ++ (← findInParts block (part + 1) parts)

/-- Asks about the operands of a block, and keeps apart what goes into statements and what goes into
branches. -/
def findInBlock (block : Nat) (b : Block) : m (List Replacement × List Replacement) := do
  let inBody ← findInParts f block 0 (b.body.map (·.2.operation.operands))
  let inBranches ← findInParts f block 0 (b.branches.map Branch.args)
  return (inBody, inBranches)

/-- Asks about the operands of blocks, the first of them being number `block`. -/
def findInBlocks (block : Nat) : List Block → m (List Replacement × List Replacement)
  | [] => return ([], [])
  | b :: blocks => do
    let here ← findInBlock f block b
    let rest ← findInBlocks (block + 1) blocks
    return (here.1 ++ rest.1, here.2 ++ rest.2)

end Replacement

namespace InPlace

/-- Writes down replacements in statements and in branches, unless one of them is a variable, and
counts them. -/
def replaceAll (inBodies inBranches : List Replacement) : InPlace Graph Nat := do
  if (inBodies ++ inBranches).any (·.new.isVar) then throw (.structural .variableReplacement)
  inBodies.forM fun r => onBlock ⟨r.block⟩ r.inBody
  inBranches.forM fun r => onBlock ⟨r.block⟩ r.inBranches
  return inBodies.length + inBranches.length

/-- Replaces constants and globals by what `f` returns for them, which may depend on what it was
asked before; `t` is what it knows at first. Whether or not the replacements are made, the answer
tells what it knows at last. -/
def replaceOperands {τ : Type} (f : Operand → StateM τ (Option Operand)) (t : τ) :
    StateM Graph (Except GraphError Nat × τ) := do
  let g ← get
  let (found, t') := (Replacement.findInBlocks f 0 g.blocks.toList).run t
  let made ← (replaceAll found.1 found.2).run
  return (made, t')

/-- The same as a call, which leaves aside what `f` knows at last. -/
def replaceOperandsBy {τ : Type} (f : Operand → StateM τ (Option Operand)) (t : τ) :
    InPlace Graph Nat := ExceptT.mk do return (← replaceOperands f t).1

/-- Turns every call `f(a, b)` whose callee is not `via` into `via(f, a, b)`, and counts the calls
turned. -/
def routeCalls (via : Operand) : InPlace Graph Nat :=
  modifyGet fun g => ((g.routeCalls via).2, (g.routeCalls via).1)

/-! ## Branches -/

def addBranch (b : BlockId) (br : Branch) : InPlace Graph Unit := do
  let block ← ask (·.block b)
  if block.isClosed then throw (.structural (.closed b))
  let expected ← ask (·.targetArity br.target)
  if br.args.length ≠ expected then
    throw (.structural (.unbalancedEdit b br.args.length expected))
  match br.condition with
  | some c => let _ ← ask (·.reference c)
  | none => pure ()
  ask fun g => br.args.forM g.checkOperand
  onBlock b fun block => { block with branches := block.branches ++ [br] }

def branchTo (b target : BlockId) (args : List Operand) : InPlace Graph Unit :=
  addBranch b (.jump target args)

def branchUnless (b target : BlockId) (args : List Operand) (c : Variable) : InPlace Graph Unit :=
  addBranch b ((Branch.jump target args).whenFalse c)

def leaveWith (b : BlockId) (value : Operand) : InPlace Graph Unit := addBranch b (.leave value)

/-! ## Lines -/

def internLine (l : SourceLine) : InPlace Graph Nat :=
  modifyGet fun g => ((g.internLine l).2, (g.internLine l).1)

end InPlace

end Interpose
