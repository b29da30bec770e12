import Interpose.Graph.Error

/-!
# Edits of a graph

Every edit checks first and changes then: it answers with the changed graph or with an error, and so
a refused edit has no effect. What is checked here is local. Whether a definition reaches its uses
across blocks is left to `Graph.verify`, because a graph under construction may not show it yet.

A statement that is inserted or removed moves the ones after it, and a parameter the ones after it;
their sites are numbered again by `number`.
-/

set_option autoImplicit false

namespace Interpose

/-- Gives the variables consecutive sites, from position `start` on. -/
def Graph.number (site : Nat → Site) (start : Nat) (vars : List Variable) (sites : Array Site) :
    Array Site :=
  match vars with
  | [] => sites
  | v :: vs => number site (start + 1) vs (sites.setIfInBounds v.index (site start))

namespace Graph

/-- Numbering changes no other number than those in the list, and none is added. -/
@[simp] theorem size_number (site : Nat → Site) (start : Nat) (vars : List Variable)
    (sites : Array Site) : (number site start vars sites).size = sites.size := by
  induction vars generalizing start sites with
  | nil => rfl
  | cons v vs ih => simp [number, ih]

/-- The sites read off the blocks. A variable that no block binds is deleted, and the counter
stays. -/
def sitesOf (count : Nat) (blocks : Array Block) : Array Site :=
  let start : Array Site := Array.replicate count .deleted
  blocks.toList.zipIdx.foldl
    (fun sites (b, i) =>
      number (.statement ⟨i⟩) 0 b.bodyVars (number (.param ⟨i⟩) 0 b.paramVars sites))
    start

/-- The graph with its sites read off its blocks. -/
def renumbered (g : Graph) : Graph := { g with sites := sitesOf g.varCount g.blocks }

/-- A graph with one block changed. -/
def modifyBlock (g : Graph) (b : BlockId) (f : Block → Block) : Graph :=
  { g with blocks := g.blocks.modify b.index f }

/-- The variable that is handed out next. -/
def fresh (g : Graph) : Variable := ⟨g.varCount⟩

/-! ## Checks -/

/-- The block at a position that must exist. -/
def block (g : Graph) (b : BlockId) : Except GraphError Block :=
  match g.block? b with
  | some block => .ok block
  | none => .error (.unknownBlock b)

/-- The site of a variable that is about to be read. -/
def reference (g : Graph) (v : Variable) : Except GraphError Site :=
  match g.site? v with
  | none => .error (.unknownVariable v)
  | some .deleted => .error (.structural (.dangling v))
  | some site => .ok site

/-- The variable may be read at a position of a block: it is bound, and not at that position or a
later one of the same block. -/
def checkUseAt (g : Graph) (b : BlockId) (position : Nat) (v : Variable) :
    Except GraphError Unit := do
  match ← g.reference v with
  | .statement b' index =>
    if b' = b ∧ position ≤ index then throw (.structural (.usedEarly v b))
  | _ => pure ()

/-- The statement may stand at a position of a block. -/
def checkStatement (g : Graph) (b : BlockId) (position : Nat) (s : Statement) :
    Except GraphError Unit :=
  s.uses.forM (g.checkUseAt b position)

/-- The operand is bound, if it is a variable. -/
def checkOperand (g : Graph) (op : Operand) : Except GraphError Unit :=
  match op with
  | .var v => do let _ ← g.reference v
  | _ => pure ()

/-- The block and position of the statement that binds a variable. -/
def statementSite (g : Graph) (v : Variable) : Except GraphError (BlockId × Nat) :=
  match g.site? v with
  | some (.statement b i) => .ok (b, i)
  | some (.param _ _) => .error (.structural (.notStatement v))
  | some .deleted | none => .error (.unknownVariable v)

/-! ## Blocks and parameters -/

/-- The graph with an empty block at the end, and the number of that block. -/
def addBlock (g : Graph) : Graph × BlockId :=
  ({ g with blocks := g.blocks.push .empty }, ⟨g.blocks.size⟩)

/-- The graph with a parameter inserted at a position of a block. Every branch into the block passes
`default` at that position, so branches and parameters still agree. -/
def addParamAt (g : Graph) (b : BlockId) (position : Nat) (ty : Ty) (default : Operand) :
    Except GraphError (Graph × Variable) := do
  let block ← g.block b
  g.checkOperand default
  let count := block.params.length
  if count < position then throw (.structural (.paramPosition position b count))
  let v := g.fresh
  -- the parameters behind the new one move up, and so do their sites
  let params := block.params.insertIdx position (v, ty)
  let sites := number (.param b) position ((params.drop position).map Prod.fst)
    (g.sites.push (.param b position))
  let blocks := (g.blocks.modify b.index ({ · with params })).map fun block =>
    { block with branches := block.branches.map (·.withArgument b position default) }
  return ({ g with sites, blocks }, v)

/-- The graph with a parameter added after the others of a block. -/
def addParamWith (g : Graph) (b : BlockId) (ty : Ty) (default : Operand) :
    Except GraphError (Graph × Variable) := do
  let block ← g.block b
  g.addParamAt b block.params.length ty default

/-- The same, where branches into the block pass `nothing`. -/
def addParam (g : Graph) (b : BlockId) (ty : Ty) : Except GraphError (Graph × Variable) :=
  g.addParamWith b ty (.const .nothing)

/-! ## Statements -/

/-- The graph with a statement inserted at a position of a block. -/
def insertAt (g : Graph) (b : BlockId) (position : Nat) (s : Statement) :
    Except GraphError (Graph × Variable) := do
  g.checkStatement b position s
  let v := g.fresh
  let body := ((g.block? b).getD .empty).body.insertIdx position (v, s)
  let sites := number (.statement b) position ((body.drop position).map Prod.fst)
    (g.sites.push (.statement b position))
  return ({ g.modifyBlock b ({ · with body }) with sites }, v)

/-- The graph with a statement added at the end of a block. -/
def pushTo (g : Graph) (b : BlockId) (s : Statement) : Except GraphError (Graph × Variable) := do
  let block ← g.block b
  g.insertAt b block.body.length s

/-- The graph with a statement added at the end of the last block. -/
def push (g : Graph) (s : Statement) : Except GraphError (Graph × Variable) :=
  g.pushTo ⟨g.blocks.size - 1⟩ s

/-- The graph with a statement added at the beginning of a block. -/
def prependTo (g : Graph) (b : BlockId) (s : Statement) : Except GraphError (Graph × Variable) := do
  let _ ← g.block b
  g.insertAt b 0 s

/-- The graph with a statement added at the beginning of the entry. -/
def prepend (g : Graph) (s : Statement) : Except GraphError (Graph × Variable) :=
  g.prependTo .entry s

/-- The graph with a statement inserted before the one that binds `v`. -/
def insertBefore (g : Graph) (v : Variable) (s : Statement) :
    Except GraphError (Graph × Variable) := do
  let (b, i) ← g.statementSite v
  g.insertAt b i s

/-- The graph with a statement inserted after the one that binds `v`. -/
def insertAfter (g : Graph) (v : Variable) (s : Statement) :
    Except GraphError (Graph × Variable) := do
  let (b, i) ← g.statementSite v
  g.insertAt b (i + 1) s

/-- The statement at a position of a block, for a site of the table. -/
def statementAt (g : Graph) (b : BlockId) (i : Nat) : Statement :=
  ((((g.block? b).getD .empty).body[i]?).map Prod.snd).getD default

/-- The graph with another statement for `v`, and the statement before. -/
def set (g : Graph) (v : Variable) (s : Statement) : Except GraphError (Graph × Statement) := do
  let (b, i) ← g.statementSite v
  g.checkStatement b i s
  return (g.modifyBlock b fun block => { block with body := block.body.modify i fun e => (e.1, s) },
    g.statementAt b i)

/-- The graph without the statement that binds `v`, which nothing may read, and that statement. -/
def delete (g : Graph) (v : Variable) : Except GraphError (Graph × Statement) := do
  let (b, i) ← g.statementSite v
  if g.isUsed v then throw (.structural (.stillUsed v))
  let body := ((g.block? b).getD .empty).body.eraseIdx i
  let sites := (number (.statement b) i ((body.drop i).map Prod.fst) g.sites).setIfInBounds
    v.index .deleted
  return ({ g.modifyBlock b ({ · with body }) with sites }, g.statementAt b i)

/-! ## Operands -/

/-- What becomes of one operand, and the list of replacements so far. A variable is not asked
about. -/
def replaceOperand {m : Type → Type} [Monad m] (f : Operand → m (Option Operand)) (op : Operand) :
    StateT (List Operand) m Operand :=
  match op with
  | .var v => pure (.var v)
  | op => do
    match ← f op with
    | none => pure op
    | some new => modify (· ++ [new]); pure new

/-- The graph with constants and globals replaced by what `f` returns for them, and the number of
replacements. `f` sees each of them once, in the order of the blocks. If a replacement is a
variable, none is made. -/
def replaceOperandsM {m : Type → Type} [Monad m] (g : Graph) (f : Operand → m (Option Operand)) :
    m (Except GraphError (Graph × Nat)) := do
  let (blocks, made) ← (g.blocks.toList.mapM (Block.mapOperandsM (replaceOperand f))).run []
  if made.any Operand.isVar then return .error (.structural .variableReplacement)
  else return .ok ({ g with blocks := blocks.toArray }, made.length)

/-- The same for a function without effects. -/
def replaceOperands (g : Graph) (f : Operand → Option Operand) : Except GraphError (Graph × Nat) :=
  Id.run (g.replaceOperandsM fun op => pure (f op))

/-- The graph with every call `f(a, b)` whose callee is not `via` turned into `via(f, a, b)`, and
the number of calls turned. -/
def routeCalls (g : Graph) (via : Operand) : Graph × Nat :=
  let isDirect (s : Statement) : Bool :=
    match s.operation with
    | .call callee _ => !(callee == via)
    | .operand _ => false
  let route (s : Statement) : Statement :=
    match s.operation with
    | .call callee args =>
      if callee == via then s else { s with operation := .call via (callee :: args) }
    | .operand _ => s
  ({ g with
      blocks := g.blocks.map fun b => { b with body := b.body.map fun (v, s) => (v, route s) } },
    (g.statements.filter fun (_, s) => isDirect s).length)

/-! ## Branches -/

/-- How many arguments a branch to the target passes. -/
def targetArity (g : Graph) (t : Target) : Except GraphError Nat :=
  match t with
  | .block b => do return (← g.block b).params.length
  | .leave => return 1

/-- The graph with one more branch at the end of a block, which must not be closed. -/
def addBranch (g : Graph) (b : BlockId) (br : Branch) : Except GraphError Graph := do
  let block ← g.block b
  if block.isClosed then throw (.structural (.closed b))
  let expected ← g.targetArity br.target
  if br.args.length ≠ expected then
    throw (.structural (.unbalancedEdit b br.args.length expected))
  match br.condition with
  | some c => let _ ← g.reference c
  | none => pure ()
  br.args.forM g.checkOperand
  return g.modifyBlock b fun block => { block with branches := block.branches ++ [br] }

/-- The graph with a branch that is always taken. -/
def branchTo (g : Graph) (b target : BlockId) (args : List Operand) : Except GraphError Graph :=
  g.addBranch b (.jump target args)

/-- The graph with a branch that is taken when `c` is false. -/
def branchUnless (g : Graph) (b target : BlockId) (args : List Operand) (c : Variable) :
    Except GraphError Graph :=
  g.addBranch b ((Branch.jump target args).whenFalse c)

/-- The graph with a return. -/
def leaveWith (g : Graph) (b : BlockId) (value : Operand) : Except GraphError Graph :=
  g.addBranch b (.leave value)

/-! ## Lines -/

/-- The graph with a place in its line table, and the place's number. -/
def internLine (g : Graph) (l : SourceLine) : Graph × Nat :=
  match g.lines.findIdx? (· == l) with
  | some i => (g, i + 1)
  | none => ({ g with lines := g.lines ++ [l] }, g.lines.length + 1)

end Graph

end Interpose
