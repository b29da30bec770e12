import Interpose.Lowering.Bindings
import Interpose.Graph.Edit

/-!
# A graph in the making

A draft is a graph together with the place where the next statement goes and with what the names
stand for there. Where ways through the program meet, `join` opens a block for what follows. A name
that stands for one operand on all ways keeps it. A name that differs, or is missing on some way,
becomes a parameter of the new block if it is still read, and is forgotten if not.
-/

set_option autoImplicit false

namespace Interpose

/-- A graph in the making. -/
structure Draft where
  graph : Graph
  /-- The file that lines are recorded for. -/
  file : String
  /-- Where the next statement goes. -/
  block : BlockId
  env : Bindings
  /-- The way that was followed has returned; nothing more is added to it. -/
  closed : Bool

/-- A step that extends a draft. -/
abbrev Drafting := StateT Draft (Except GraphError)

/-- One way into a block that does not exist yet. -/
structure Edge where
  source : BlockId
  env : Bindings
  /-- What the construct is worth on this way, if it is an expression. -/
  value : Option Operand
  /-- The way is taken when the variable is false; when it is true, the block is entered. -/
  unlessTaken : Option (Variable × BlockId)

/-- The operand that a name has on every edge, if it is the same on all. -/
def Edge.common? (edges : List Edge) (name : String) : Option Operand :=
  (edges.head?.bind (·.env.get? name)).filter fun op =>
    edges.all fun e => e.env.get? name == some op

/-- All names that are bound on some edge. -/
def Edge.names (edges : List Edge) : Names :=
  edges.foldl (fun ns e => Names.union ns e.env.names) []

namespace Drafting

/-! ## Blocks, statements and branches -/

/-- Opens an empty block. -/
def openBlock : Drafting BlockId := do
  let d ← get
  let (graph, b) := d.graph.addBlock
  set { d with graph }
  return b

/-- Adds a parameter to a block. -/
def param (b : BlockId) : Drafting Variable := do
  let d ← get
  let (graph, v) ← d.graph.addParam b .any
  set { d with graph }
  return v

/-- Adds a statement that stems from a line. -/
def emit (s : Statement) (line : Nat) : Drafting Variable := do
  let d ← get
  let (graph, n) := d.graph.internLine ⟨d.file, line⟩
  let (graph, v) ← graph.pushTo d.block { s with line := n }
  set { d with graph }
  return v

/-- Adds a branch that is always taken. -/
def branch (b target : BlockId) (args : List Operand) : Drafting Unit := do
  let d ← get
  set { d with graph := ← d.graph.branchTo b target args }

/-- Adds a branch that is taken when a variable is false. -/
def branchUnless (b target : BlockId) (args : List Operand) (c : Variable) : Drafting Unit := do
  let d ← get
  set { d with graph := ← d.graph.branchUnless b target args c }

/-- Returns, which closes the way. -/
def leave (value : Operand) : Drafting Unit := do
  let d ← get
  set { d with graph := ← d.graph.leaveWith d.block value, closed := true }

/-- Goes on in a block. -/
def enter (b : BlockId) (env : Bindings) : Drafting Unit :=
  modify ({ · with block := b, env, closed := false })

/-- What a name stands for is an operand from here on. -/
def assign (name : String) (op : Operand) : Drafting Unit :=
  modify fun d => { d with env := d.env.bind name op }

/-- A variable that holds the operand, for a condition. -/
def condition (op : Operand) (line : Nat) : Drafting Variable :=
  match op with
  | .var v => return v
  | .const c => emit ⟨.operand op, c.typeOf, 0⟩ line
  | .global _ => emit (.plain (.operand op)) line

/-- Ends the current block with two branches into new blocks: the first is entered when the
condition is true, the second when it is false. -/
def fork (c : Variable) : Drafting (BlockId × BlockId) := do
  let source := (← get).block
  let onTrue ← openBlock
  let onFalse ← openBlock
  branchUnless source onFalse [] c
  branch source onTrue []
  return (onTrue, onFalse)

/-! ## Joins -/

/-- The edge from where the draft stands. -/
def edge (value : Option Operand) : Drafting Edge := do
  let d ← get
  return ⟨d.block, d.env, value, none⟩

/-- The same, if the way has not returned. -/
def edge? : Drafting (List Edge) := do
  if (← get).closed then return [] else return [← edge none]

/-- Leads an edge into the block with the arguments that it passes. -/
def connect (e : Edge) (target : BlockId) (args : List Operand) : Drafting Unit :=
  match e.unlessTaken with
  | none => branch e.source target args
  | some (c, other) => do
    branchUnless e.source target args c
    branch e.source other []

/-- Joins the edges in a new block and goes on there. The answer is what the construct is worth, if
it is an expression. Where no way leads on, the draft is closed. -/
def join (edges : List Edge) (live : Names) : Drafting (Option Operand) := do
  if edges.isEmpty then
    modify ({ · with closed := true })
    return none
  let names := Edge.names edges
  let threaded := names.filter fun n => (Edge.common? edges n).isNone && live.contains n
  let target ← openBlock
  let env ← names.foldlM (fun (env : Bindings) n => do
    match Edge.common? edges n with
    | some op => return env.bind n op
    | none => if live.contains n then return env.bind n (.var (← param target)) else return env) []
  let value ← if edges.any (·.value.isSome) then pure (some (Operand.var (← param target)))
    else pure none
  -- the parameters are complete, so every branch is balanced when it is added
  for e in edges do
    let passed := threaded.map e.env.passed
    connect e target
      (if value.isSome then passed ++ [e.value.getD (.const .nothing)] else passed)
  enter target env
  return value

end Drafting

end Interpose
