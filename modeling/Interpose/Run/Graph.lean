import Interpose.Run.Basic
import Interpose.Graph.Edit

/-!
# Running a graph

A run keeps one value for every variable that the graph has handed out. It begins in the entry and
goes through the statements of a block in order. Then the first branch that is taken either ends the
run with its argument or binds the parameters of the block that it goes to. All arguments are read
before any parameter is bound, since a loop may pass a parameter of its head back in another place.
-/

set_option autoImplicit false

namespace Interpose

/-- The values of the variables, by number. -/
abbrev Frame := Array Value

namespace Frame

/-- The frame with values bound to variables, as far as both lists go. -/
def bind (frame : Frame) : List Variable → List Value → Frame
  | v :: vs, x :: xs => Frame.bind (frame.setIfInBounds v.index x) vs xs
  | _, _ => frame

/-- Binding adds no variable and takes none away. -/
@[simp] theorem size_bind (frame : Frame) (vs : List Variable) (xs : List Value) :
    (frame.bind vs xs).size = frame.size := by
  induction vs generalizing frame xs with
  | nil => rfl
  | cons v vs ih =>
    cases xs with
    | nil => rfl
    | cons x xs => simp [bind, ih]

/-- The value of a variable. -/
def read (frame : Frame) (v : Variable) : Except Fault Value :=
  match frame[v.index]? with
  | some x => .ok x
  | none => .error (.noSlot v)

end Frame

variable {σ : Type}

/-! ## Statements -/

/-- The value of an operand. -/
def Operand.eval (env : Surroundings σ) (frame : Frame) (op : Operand) : Run σ Value :=
  match op with
  | .var v => Run.ofExcept (frame.read v)
  | .const c => pure c
  | .global name => do
    match env.global (← get) name with
    | some x => return x
    | none => throw (.trap (.undefinedGlobal name))

/-- The values of operands, read in order. -/
def Operand.evalAll (env : Surroundings σ) (frame : Frame) : List Operand → Run σ (List Value)
  | [] => return []
  | op :: ops => do
    let x ← op.eval env frame
    return x :: (← evalAll env frame ops)

/-- The result of an operation. -/
def Operation.eval (env : Surroundings σ) (frame : Frame) (e : Operation) : Run σ Value :=
  match e with
  | .operand op => op.eval env frame
  | .call callee args => do
    let f ← callee.eval env frame
    let args ← Operand.evalAll env frame args
    env.call f args

/-- The frame after statements. -/
def runStatements (env : Surroundings σ) (frame : Frame) :
    List (Variable × Statement) → Run σ Frame
  | [] => return frame
  | (v, s) :: rest => do
    let x ← s.operation.eval env frame
    runStatements env (frame.setIfInBounds v.index x) rest

/-! ## Branches -/

/-- The first branch that is taken. A condition has to be a truth value, and its branch is taken
when it is false. -/
def taken? (frame : Frame) : List Branch → Except Fault (Option Branch)
  | [] => .ok none
  | br :: rest =>
    match br.condition with
    | none => .ok (some br)
    | some c => do
      let holds ← (← frame.read c).asBool.mapError .trap
      if holds then taken? frame rest else return some br

/-! ## Blocks -/

namespace Graph

/-- Runs from the beginning of a block. Every block that is entered takes one unit of fuel. -/
def runFrom (env : Surroundings σ) (g : Graph) : Nat → BlockId → Frame → Run σ Value
  | 0, _, _ => .outOfFuel
  | n + 1, b, frame => do
    let block ← Run.ofGraph (g.block b)
    let frame ← runStatements env frame block.body
    match ← Run.ofExcept (taken? frame block.branches) with
    | none => throw (.noBranch b)
    | some br =>
      -- all arguments are read before the first parameter is bound
      let passed ← Operand.evalAll env frame br.args
      match br.target with
      | .leave => Run.ofExcept (passed.head?.elim (.error .emptyReturn) .ok)
      | .block t =>
        let next ← Run.ofGraph (g.block t)
        runFrom env g n t (frame.bind next.paramVars passed)

/-- The frame of a run that begins: the entry's parameters are bound to the arguments, and any other
variable to a filling that is never read in a graph that is in order. -/
def startFrame (g : Graph) (fill : Value) (args : List Value) : Frame :=
  Frame.bind (Array.replicate g.varCount fill) g.arguments args

/-- Runs the graph on values for the entry's parameters. -/
def run (env : Surroundings σ) (g : Graph) (fuel : Nat) (args : List Value) : Run σ Value :=
  g.runFrom env fuel .entry (g.startFrame .nothing args)

/-- The function that the graph was made from, as a value. It fills the first parameter of the
entry. -/
def self? (g : Graph) : Option Value := g.provenance.map fun p => .func p.callee

/-- How many arguments a call of the graph passes. -/
def arity (g : Graph) : Nat :=
  if g.self?.isSome then g.entry.params.length - 1 else g.entry.params.length

/-- Calls the graph. -/
def invoke (env : Surroundings σ) (g : Graph) (fuel : Nat) (args : List Value) : Run σ Value :=
  if args.length = g.arity then g.run env fuel (g.self?.toList ++ args)
  else throw (.trap (.arityMismatch g.arity args.length))

end Graph

end Interpose
