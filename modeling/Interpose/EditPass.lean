import Interpose.Table
import Interpose.Graph.Edit
import Interpose.Graph.Check

/-!
# Edit passes

An edit pass goes once over the statements of a graph, in order, and collects edits next to the
statement that it stands at. Statements are copied to the output as the pass moves on: first what
was inserted before one, then the statement itself unless it was deleted, then what was inserted
after it. A statement that was not edited keeps its variable, and a new one gets the next number of
the graph.

`finish` puts the output in place of the bodies, redirects the uses of substituted variables and
checks the result. Until then the graph of the pass stays as it was, apart from the numbers that
were handed out.
-/

set_option autoImplicit false

namespace Interpose

/-- An edit pass over a graph. -/
structure EditPass where
  /-- The graph passed over, with the variables of inserted statements handed out and not yet
  bound. -/
  source : Graph
  /-- What is already written, for every block. -/
  out : Array (List (Variable × Statement))
  /-- The block and the position in it of the next statement to visit. -/
  block : Nat
  next : Nat
  /-- The variable of the statement that the pass stands at. -/
  current : Option Variable
  /-- What will be written for it, if it is not deleted. -/
  staged : Option Statement
  /-- What will be written after it. -/
  after : List (Variable × Statement)
  /-- The visited variables whose statements are deleted. -/
  deleted : List Variable
  /-- What the uses of a variable are redirected to. -/
  redirects : Table Variable Operand

namespace EditPass

/-- A pass that stands before the first statement. -/
def start (g : Graph) : EditPass where
  source := g
  out := Array.replicate g.blocks.size []
  block := 0
  next := 0
  current := none
  staged := none
  after := []
  deleted := []
  redirects := .empty

/-! ## Moving on -/

/-- Writes a statement to the output of the current block. -/
def write (p : EditPass) (entries : List (Variable × Statement)) : EditPass :=
  { p with out := p.out.modify p.block (· ++ entries) }

/-- Writes what is kept of the visited statement and what follows it, and leaves it. -/
def flush (p : EditPass) : EditPass :=
  match p.current with
  | none => p
  | some v =>
    let kept := p.staged.toList.map fun s => (v, s)
    { p.write (kept ++ p.after) with current := none, staged := none, after := [] }

/-- Goes to the next statement, through the blocks that have none left. -/
def seek (p : EditPass) : EditPass :=
  if h : p.block < p.source.blocks.size then
    match p.source.blocks[p.block].body[p.next]? with
    | some (v, s) => { p with next := p.next + 1, current := some v, staged := some s }
    | none => seek { p with block := p.block + 1, next := 0 }
  else p
termination_by p.source.blocks.size - p.block

/-- Moves to the next statement; its variable is the new `current`, none when all were visited. -/
def advance (p : EditPass) : EditPass := p.flush.seek

/-- The site lies at or behind the next statement to visit. -/
def isAhead (p : EditPass) (site : Site) : Bool :=
  match site with
  | .statement b i => p.block < b.index || (p.block == b.index && p.next ≤ i)
  | _ => false

/-- The statement of a variable as it stands: at the pass, in the output, or ahead. -/
def get? (p : EditPass) (v : Variable) : Option Statement :=
  if p.current = some v then p.staged
  else if p.deleted.contains v then none
  else
    match p.out.toList.findSome? (·.lookup v) <|> p.after.lookup v with
    | some s => some s
    | none =>
      match p.source.site? v with
      | some site => if p.isAhead site then p.source.get? v else none
      | none => none

/-- How many variables were handed out. -/
def varCount (p : EditPass) : Nat := p.source.varCount

/-! ## Edits -/

/-- The edit is for the statement that the pass stands at. -/
def checkCurrent (p : EditPass) (v : Variable) : Except GraphError Unit :=
  if p.current = some v then .ok () else .error (.offCursor p.current v)

/-- A new statement may read the variable. A statement before the visited one must not read that or
what follows it. -/
def checkUse (p : EditPass) (before : Bool) (u : Variable) : Except GraphError Unit :=
  match p.source.site? u with
  | none => .error (.unknownVariable u)
  | some site =>
    if before && (p.current == some u || (p.after.map Prod.fst).contains u) || p.isAhead site then
      .error (.structural (.aheadOfPass u))
    else .ok ()

/-- The checks of an edit that brings in a statement. -/
def check (p : EditPass) (v : Variable) (s : Statement) (before : Bool) :
    Except GraphError Unit := do
  p.checkCurrent v
  s.uses.forM (p.checkUse before)

/-- Hands out a variable that is bound nowhere yet. -/
def fresh (p : EditPass) : EditPass × Variable :=
  ({ p with source.sites := p.source.sites.push .deleted }, p.source.fresh)

/-- Inserts a statement before the visited one. -/
def insertBefore (p : EditPass) (v : Variable) (s : Statement) :
    Except GraphError (EditPass × Variable) := do
  p.check v s true
  let (p, new) := p.fresh
  return (p.write [(new, s)], new)

/-- Inserts a statement after the visited one and what was inserted there before. -/
def insertAfter (p : EditPass) (v : Variable) (s : Statement) :
    Except GraphError (EditPass × Variable) := do
  p.check v s false
  let (p, new) := p.fresh
  return ({ p with after := p.after ++ [(new, s)] }, new)

/-- Puts another statement in the place of the visited one. -/
def replace (p : EditPass) (v : Variable) (s : Statement) : Except GraphError EditPass := do
  p.check v s true
  return { p with deleted := p.deleted.filter (· ≠ v), staged := some s }

/-- Deletes the visited statement, and answers with it. -/
def delete (p : EditPass) (v : Variable) : Except GraphError (EditPass × Statement) := do
  p.checkCurrent v
  match p.staged with
  | some s => return ({ p with staged := none, deleted := v :: p.deleted }, s)
  | none => throw (.unknownVariable v)

/-- Redirects the uses of a variable to an operand. -/
def substitute (p : EditPass) (v : Variable) (op : Operand) : Except GraphError EditPass := do
  if p.varCount ≤ v.index then throw (.unknownVariable v)
  if op.var? = some v then throw (.structural (.selfSubstitution v))
  return { p with redirects := p.redirects.insert v op }

/-! ## The result -/

/-- The statements of a block that were never visited. -/
def unvisited (p : EditPass) (index : Nat) (body : List (Variable × Statement)) :
    List (Variable × Statement) :=
  if index < p.block then [] else body.drop (if index = p.block then p.next else 0)

/-- The graph with its new bodies. -/
def assembled (p : EditPass) : Graph :=
  let p := p.flush
  { p.source with
    blocks := p.source.blocks.mapIdx fun i b =>
      { b with body := p.out.getD i [] ++ p.unvisited i b.body } }

/-- Follows redirects from an operand, `hops` of them at most. -/
def follow (redirects : Table Variable Operand) : Nat → Operand → Operand
  | 0, op => op
  | hops + 1, op =>
    match op with
    | .var v =>
      match redirects.get? v with
      | some next => follow redirects hops next
      | none => op
    | _ => op

/-- What an operand becomes. A chain of redirects that does not come back to itself is followed to
its end. -/
def redirect (redirects : Table Variable Operand) (op : Operand) : Operand :=
  follow redirects (redirects.size + 1) op

/-- The branch with its operands redirected; the condition has to stay a variable. -/
def redirectBranch (redirects : Table Variable Operand) (br : Branch) :
    Except GraphError Branch := do
  let args := br.args.map (redirect redirects)
  match br.condition with
  | none => return { br with args }
  | some c =>
    match redirect redirects (.var c) with
    | .var c' => return { br with args, condition := some c' }
    | op => throw (.structural (.conditionReplaced c op))

/-- The block with its operands redirected. -/
def redirectBlock (redirects : Table Variable Operand) (b : Block) : Except GraphError Block := do
  let body := b.body.map fun (v, s) => (v, s.map (redirect redirects))
  return { b with body, branches := ← b.branches.mapM (redirectBranch redirects) }

/-- The first variable that is read and bound nowhere, statements before branches in each block. -/
def firstDangling? (g : Graph) : Option Variable :=
  (g.blocks.toList.flatMap Block.uses).find? fun u => !g.isDefined u

/-- The edited graph. Every use in it must be bound, on every way to it in a block that can be
reached. -/
def finish (p : EditPass) : Except GraphError Graph := do
  let g := p.assembled
  let blocks ← g.blocks.toList.mapM (redirectBlock p.redirects)
  let g := { g with blocks := blocks.toArray }.renumbered
  -- a use of a deleted variable is reported before any use that is only out of order
  if let some u := firstDangling? g then throw (.structural (.deletedInPass u))
  g.verifyUses
  return g

end EditPass

end Interpose
