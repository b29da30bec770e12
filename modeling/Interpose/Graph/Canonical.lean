import Interpose.Graph.Edit

/-!
# Canonical numbers

Two graphs that differ only in their history of edits differ only in the numbers of their variables.
`canonical` numbers the bound variables in the order of their definitions, block by block and
parameters before statements, and so makes such graphs equal.
-/

set_option autoImplicit false

namespace Interpose

namespace Graph

/-- The bound variables in the order of their definitions. -/
def boundVars (g : Graph) : List Variable := g.blocks.toList.flatMap Block.boundVars

/-- The new number of a variable: its place among the bound ones. A variable that is bound nowhere
keeps its number. -/
def rename (bound : List Variable) (v : Variable) : Variable :=
  match bound.findIdx? (· == v) with
  | some i => ⟨i⟩
  | none => v

def renameOperand (f : Variable → Variable) : Operand → Operand
  | .var v => .var (f v)
  | op => op

/-- A block with every variable renamed. -/
def renameBlock (f : Variable → Variable) (b : Block) : Block where
  params := b.params.map fun (v, ty) => (f v, ty)
  body := b.body.map fun (v, s) => (f v, s.map (renameOperand f))
  branches := b.branches.map fun br =>
    { br with condition := br.condition.map f, args := br.args.map (renameOperand f) }

/-- The graph with its variables numbered in the order of their definitions. -/
def canonical (g : Graph) : Graph :=
  let bound := g.boundVars
  let blocks := g.blocks.map (renameBlock (rename bound))
  { g with blocks, sites := sitesOf bound.length blocks }

/-- The graphs have the same blocks once their variables are numbered canonically. Lines and
provenance are not compared. -/
def sameShape (g h : Graph) : Bool := g.canonical.blocks == h.canonical.blocks

end Graph

end Interpose
