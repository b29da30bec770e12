import Interpose.Signature
import Interpose.Source.Tree

/-!
# Block graphs

A block graph is a program in single-assignment form. It is a list of blocks, of which the first is
the entry. A block has parameters, statements and branches. Every statement binds one variable and
never nests, a branch passes one argument for each parameter of its target, and so no value needs to
be merged in any other way.

Beside the blocks a graph keeps a table with the site of every variable that was ever handed out.
The number of its entries is the counter of variables: numbers are given in order and never reused.
-/

set_option autoImplicit false

namespace Interpose

/-- A variable, by its number. -/
structure Variable where
  index : Nat
deriving Repr, DecidableEq, Inhabited

/-- A block, by its position. -/
structure BlockId where
  index : Nat
deriving Repr, DecidableEq, Inhabited

namespace BlockId

/-- The block where every run begins. -/
def entry : BlockId := ⟨0⟩

def text (b : BlockId) : String := toString b.index

end BlockId

def Variable.text (v : Variable) : String := s!"%{v.index}"

/-- What a statement or a branch refers to. A global is looked up when the statement runs. -/
inductive Operand where
  | var (v : Variable)
  | const (c : Value)
  | global (name : String)
deriving BEq, Inhabited

namespace Operand

def var? : Operand → Option Variable
  | .var v => some v
  | _ => none

def isVar (op : Operand) : Bool := op.var?.isSome

def text : Operand → String
  | .var v => v.text
  | .const c => c.text
  | .global name => name

end Operand

/-- Operands in parentheses. -/
def Operand.listText (ops : List Operand) : String := ", ".intercalate (ops.map Operand.text)

/-- What a statement does: a call, or passing on one operand. -/
inductive Operation where
  | call (callee : Operand) (args : List Operand)
  | operand (op : Operand)
deriving BEq, Inhabited

namespace Operation

/-- The operands, callee first. -/
def operands : Operation → List Operand
  | .call callee args => callee :: args
  | .operand op => [op]

/-- The variables that are read, in order. -/
def uses (e : Operation) : List Variable := e.operands.filterMap Operand.var?

/-- The operation with a function applied to every operand. -/
def map (f : Operand → Operand) : Operation → Operation
  | .call callee args => .call (f callee) (args.map f)
  | .operand op => .operand (f op)

/-- The same with an effect, from the callee to the last argument. -/
def mapM {m : Type → Type} [Monad m] (f : Operand → m Operand) : Operation → m Operation
  | .call callee args => do return .call (← f callee) (← args.mapM f)
  | .operand op => do return .operand (← f op)

def text : Operation → String
  | .call callee args => s!"{callee.text}({Operand.listText args})"
  | .operand op => op.text

@[simp] theorem operands_map (f : Operand → Operand) (e : Operation) :
    (e.map f).operands = e.operands.map f := by
  cases e <;> simp [map, operands]

end Operation

/-- One statement: what it does, the type noted for its result, and its place in the line table,
zero for none. -/
structure Statement where
  operation : Operation
  ty : Ty
  line : Nat
deriving BEq, Inhabited

namespace Statement

/-- A statement about which nothing is noted. -/
def plain (e : Operation) : Statement := ⟨e, .any, 0⟩

def uses (s : Statement) : List Variable := s.operation.uses

/-- The statement with a function applied to every operand. -/
def map (f : Operand → Operand) (s : Statement) : Statement :=
  { s with operation := s.operation.map f }

end Statement

/-- Where a branch goes. -/
inductive Target where
  | block (b : BlockId)
  /-- Leave the function with the one argument of the branch. -/
  | leave
deriving Repr, DecidableEq, Inhabited

/-- One way out of a block. The branches of a block are tried in order. One without a condition is
taken; one with a condition is taken when the condition is false. -/
structure Branch where
  target : Target
  condition : Option Variable
  args : List Operand
deriving BEq, Inhabited

namespace Branch

/-- A branch that is always taken. -/
def jump (b : BlockId) (args : List Operand) : Branch := ⟨.block b, none, args⟩

/-- A return. -/
def leave (value : Operand) : Branch := ⟨.leave, none, [value]⟩

/-- The branch taken only when `c` is false. -/
def whenFalse (br : Branch) (c : Variable) : Branch := { br with condition := some c }

/-- The branch with one more argument at a position, if it goes to the block. -/
def withArgument (br : Branch) (b : BlockId) (position : Nat) (value : Operand) : Branch :=
  if br.target = .block b then { br with args := br.args.insertIdx position value } else br

def isConditional (br : Branch) : Bool := br.condition.isSome

/-- The block that the branch goes to. -/
def block? (br : Branch) : Option BlockId :=
  match br.target with
  | .block b => some b
  | .leave => none

/-- The variables that are read: the condition, then the arguments. -/
def uses (br : Branch) : List Variable :=
  br.condition.toList ++ br.args.filterMap Operand.var?

def text (br : Branch) : String :=
  let goal := match br.target with
    | .leave => "return " ++ (br.args.head?.map Operand.text).getD ""
    | .block b =>
      s!"br {b.text}" ++ if br.args.isEmpty then "" else s!" ({Operand.listText br.args})"
  goal ++ match br.condition with
    | none => ""
    | some c => s!" unless {c.text}"

end Branch

/-- A block: parameters with the types noted for them, statements with the variables they bind, and
branches. -/
structure Block where
  params : List (Variable × Ty)
  body : List (Variable × Statement)
  branches : List Branch
deriving BEq, Inhabited

namespace Block

/-- The block without anything in it. -/
def empty : Block := ⟨[], [], []⟩

/-- The variables of the parameters. -/
def paramVars (b : Block) : List Variable := b.params.map Prod.fst

/-- The variables that the statements bind. -/
def bodyVars (b : Block) : List Variable := b.body.map Prod.fst

/-- All variables bound in the block. -/
def boundVars (b : Block) : List Variable := b.paramVars ++ b.bodyVars

/-- A block is closed once its last branch is always taken. -/
def isClosed (b : Block) : Bool := b.branches.getLast?.any (!·.isConditional)

/-- The value that the last branch returns. -/
def returned? (b : Block) : Option Operand :=
  match b.branches.getLast? with
  | some ⟨.leave, none, args⟩ => args.head?
  | _ => none

/-- The blocks that the branches go to, in order, each as often as it is a target. -/
def targets (b : Block) : List BlockId := b.branches.filterMap Branch.block?

/-- The variables that are read, statement by statement, then branch by branch. -/
def uses (b : Block) : List Variable :=
  b.body.flatMap (·.2.uses) ++ b.branches.flatMap Branch.uses

/-- The block with an effect applied to every operand of its statements, then to every argument of
its branches. -/
def mapOperandsM {m : Type → Type} [Monad m] (f : Operand → m Operand) (b : Block) : m Block := do
  let body ← b.body.mapM fun (v, s) => do
    return (v, { s with operation := ← s.operation.mapM f })
  let branches ← b.branches.mapM fun br => do
    return { br with args := ← br.args.mapM f }
  return { b with body, branches }

end Block

/-- A place in a source text. -/
structure SourceLine where
  file : String
  line : Nat
deriving Repr, DecidableEq, Inhabited

def SourceLine.text (l : SourceLine) : String := s!"{l.file}:{l.line}"

/-- Which function a graph was made from, and for which call. -/
structure Provenance where
  callee : FuncId
  name : String
  file : String
  definition : Source.Function
  signature : Signature
deriving Inhabited

/-- Where a variable is bound. -/
inductive Site where
  | param (block : BlockId) (index : Nat)
  | statement (block : BlockId) (index : Nat)
  /-- Nowhere any more. -/
  | deleted
deriving Repr, DecidableEq, Inhabited

/-- The block of a site. -/
def Site.block? : Site → Option BlockId
  | .param b _ | .statement b _ => some b
  | .deleted => none

/-- A block graph. -/
structure Graph where
  /-- The site of every variable that was handed out. -/
  sites : Array Site
  /-- The blocks, the entry first. -/
  blocks : Array Block
  /-- The places that statements refer to, counted from one. -/
  lines : List SourceLine
  provenance : Option Provenance
deriving Inhabited

namespace Graph

/-- A graph whose only block is empty. -/
def empty : Graph := ⟨#[], #[.empty], [], none⟩

/-- The empty graph for a function. -/
def ofProvenance (p : Provenance) : Graph := { empty with provenance := some p }

/-- The empty graph with the lines and the provenance of another. -/
def emptyLike (g : Graph) : Graph := { empty with lines := g.lines, provenance := g.provenance }

/-- How many variables were handed out. -/
def varCount (g : Graph) : Nat := g.sites.size

/-- The site of a variable, if it was handed out. -/
def site? (g : Graph) (v : Variable) : Option Site := g.sites[v.index]?

/-- The block at a position. -/
def block? (g : Graph) (b : BlockId) : Option Block := g.blocks[b.index]?

/-- The block where every run begins. -/
def entry (g : Graph) : Block := g.blocks.getD 0 .empty

theorem entry_eq (g : Graph) : g.entry = (g.block? .entry).getD .empty :=
  Array.getD_eq_getD_getElem? ..

theorem entry_of_block? {g : Graph} {block : Block} (hb : g.block? .entry = some block) :
    g.entry = block := by
  rw [entry_eq, hb, Option.getD_some]

/-- The blocks with their positions. -/
def indexedBlocks (g : Graph) : List (BlockId × Block) :=
  g.blocks.toList.zipIdx.map fun (b, i) => (⟨i⟩, b)

/-- The positions of the blocks. -/
def blockIds (g : Graph) : List BlockId := (List.range g.blocks.size).map .mk

/-- How many statements there are. -/
def size (g : Graph) : Nat := g.blocks.toList.foldr (fun b n => b.body.length + n) 0

/-- The statements in the order of the blocks and of their bodies, with their variables. -/
def statements (g : Graph) : List (Variable × Statement) := g.blocks.toList.flatMap Block.body

/-- The variables of the statements, in order. -/
def keys (g : Graph) : List Variable := g.statements.map Prod.fst

/-- The variables of the entry's parameters. -/
def arguments (g : Graph) : List Variable := g.entry.paramVars

/-- The statement that binds a variable. -/
def get? (g : Graph) (v : Variable) : Option Statement := do
  match ← g.site? v with
  | .statement b i => return (← (← g.block? b).body[i]?).2
  | _ => none

/-- The variable is bound by a statement. -/
def contains (g : Graph) (v : Variable) : Bool :=
  match g.site? v with
  | some (.statement _ _) => true
  | _ => false

/-- The variable is bound by a statement or a parameter. -/
def isDefined (g : Graph) (v : Variable) : Bool :=
  match g.site? v with
  | some (.statement _ _) | some (.param _ _) => true
  | _ => false

/-- The block that binds a variable. -/
def definingBlock? (g : Graph) (v : Variable) : Option BlockId := (g.site? v).bind Site.block?

/-- A statement or a branch reads the variable. -/
def isUsed (g : Graph) (v : Variable) : Bool := g.blocks.any fun b => b.uses.contains v

/-- The branches that go back to their own block or an earlier one: the loops. -/
def backEdges (g : Graph) : List (BlockId × BlockId) :=
  g.indexedBlocks.flatMap fun (i, b) =>
    (b.targets.filter fun t => t.index ≤ i.index).map fun t => (i, t)

/-- The value that a block returns. -/
def returned? (g : Graph) (b : BlockId) : Option Operand := (g.block? b).bind Block.returned?

/-- The place that a statement's line number stands for. -/
def line? (g : Graph) (n : Nat) : Option SourceLine :=
  match n with
  | 0 => none
  | n + 1 => g.lines[n]?

end Graph

/-! ## Text

A block is its number and parameters, one line each for its statements and branches below it. A type
is written only where one is noted. -/

/-- A note of a type, if there is one to make. -/
def Ty.noteText (ty : Ty) : String := if ty = .any then "" else s!" :: {ty.text}"

def Block.headText (b : Block) : String :=
  if b.params.isEmpty then ""
  else " (" ++ ", ".intercalate (b.params.map fun (v, ty) => v.text ++ ty.noteText) ++ ")"

def Block.text (index : Nat) (b : Block) : String :=
  s!"{index}:{b.headText}\n"
    ++ String.join (b.body.map fun (v, s) => s!"  {v.text} = {s.operation.text}{s.ty.noteText}\n")
    ++ String.join (b.branches.map fun br => s!"  {br.text}\n")

def Graph.text (g : Graph) : String :=
  String.join (g.blocks.toList.zipIdx.map fun (b, i) => b.text i)

end Interpose
