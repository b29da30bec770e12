import Interpose.Graph.Error
import Interpose.Graph.Flow

/-!
# Checking a graph

A graph is in order when

* every block ends in a branch that is always taken, and only the last one is;
* every branch goes to a block of the graph and passes one argument for each of its parameters, or
  one for a return;
* every variable that is read is bound and, in a block that can be reached, bound on every way to
  the place where it is read.

The last rule is checked through the dominators: the block of the definition dominates the block of
the use, and inside one block the definition stands first. Branches stand after all statements. A
block that cannot be reached has no way that leads to it, so there the definition only has to exist.
-/

set_option autoImplicit false

namespace Interpose

/-- The site reaches a use in block `b` that `doms` dominate. `position` is the place of the using
statement, none for a branch. -/
def Site.reaches (site : Site) (b : BlockId) (position : Option Nat) (doms : List BlockId) : Bool :=
  match site with
  | .param d _ => doms.contains d
  | .statement d i =>
    if d = b then
      match position with
      | none => true
      | some p => i < p
    else doms.contains d
  | .deleted => false

namespace Graph

/-! ## Branches -/

/-- The branch passes as many arguments as its target takes. -/
def checkBranch (g : Graph) (b : BlockId) (br : Branch) : Except GraphError Unit := do
  let expected ← match br.target with
    | .block t =>
      match g.block? t with
      | some block => pure block.params.length
      | none => throw (.unknownBlock t)
    | .leave => pure 1
  if br.args.length ≠ expected then throw (.structural (.unbalanced br b expected))

/-- The block ends as it should, and its branches are balanced. -/
def checkEnd (g : Graph) (b : BlockId) (block : Block) : Except GraphError Unit := do
  match block.branches.getLast? with
  | none => throw (.structural (.noTerminator b))
  | some last => if last.isConditional then throw (.structural (.openEnd b))
  if block.branches.dropLast.any (!·.isConditional) then throw (.structural (.earlyEnd b))
  block.branches.forM (g.checkBranch b)

/-! ## Uses -/

/-- The variable may be read at a place of block `b`. `doms` are the block's dominators, none for a
block that cannot be reached. -/
def checkUse (g : Graph) (b : BlockId) (position : Option Nat) (doms : Option (List BlockId))
    (v : Variable) : Except GraphError Unit :=
  match g.site? v with
  | none => .error (.unknownVariable v)
  | some .deleted => .error (.structural (.dangling v))
  | some site =>
    match doms with
    | none => .ok ()
    | some doms =>
      if site.reaches b position doms then .ok ()
      else .error (.structural (.notDominated v b))

/-- Every variable that the block reads may be read there. -/
def checkBlockUses (g : Graph) (b : BlockId) (doms : Option (List BlockId)) (block : Block) :
    Except GraphError Unit := do
  block.body.zipIdx.forM fun ((_, s), position) =>
    s.uses.forM (g.checkUse b (some position) doms)
  block.branches.forM fun br => br.uses.forM (g.checkUse b none doms)

/-- Every variable that is read may be read there. Blocks may lack their ends. -/
def verifyUses (g : Graph) : Except GraphError Unit :=
  let live := g.reachable
  let table := g.dominators
  g.indexedBlocks.forM fun (b, block) =>
    g.checkBlockUses b (if live.contains b then some (DominatorTable.of table b) else none) block

/-- The graph is in order. The ends of all blocks are checked before any use. -/
def verify (g : Graph) : Except GraphError Unit := do
  g.indexedBlocks.forM fun (b, block) => g.checkEnd b block
  g.verifyUses

end Graph

end Interpose
