import Interpose.Script.Late
import Interpose.Script.Reply
import Interpose.EditBuffer
import Interpose.Graph.InPlace

/-!
# Edits as data

The edits and queries of graphs, and the edits of a pass, as a script writes them down: operands,
statements and types are descriptions that are resolved when the edit is made.
-/

set_option autoImplicit false

namespace Interpose.Script

/-- An edit of a graph. -/
inductive Edit where
  | addBlock
  | addParam (b : BlockId) (ty : Late Ty)
  | addParamWith (b : BlockId) (ty : Late Ty) (default : Late Operand)
  | addParamAt (b : BlockId) (position : Nat) (ty : Late Ty) (default : Late Operand)
  | push (s : Late Statement)
  | pushTo (b : BlockId) (s : Late Statement)
  | prepend (s : Late Statement)
  | prependTo (b : BlockId) (s : Late Statement)
  | insertBefore (v : Variable) (s : Late Statement)
  | insertAfter (v : Variable) (s : Late Statement)
  | set (v : Variable) (s : Late Statement)
  | delete (v : Variable)
  /-- Replace constants and globals that are equal to a left side; the first pair that fits
  counts. -/
  | replaceOperands (pairs : Late (List (Operand × Operand)))
  | addBranch (b : BlockId) (br : Late Branch)
  | internLine (file : String) (line : Nat)
  /-- Remove the blocks that cannot be reached. -/
  | prune

/-- A question about a graph. -/
inductive Query where
  | line (n : Nat)
  | get (v : Variable)
  | standing (v : Variable)
  | keys
  | block (b : BlockId)
  | returned (b : BlockId)
  | all
  | verify
  | flow

/-- An edit of a pass, next to the statement that it stands at. -/
inductive PassEdit where
  | before (s : Late Statement)
  | after (s : Late Statement)
  | replace (s : Late Statement)
  | delete
  | substitute (op : Late Operand)

variable {V : Vocabulary}

/-- The call that makes an edit in place. -/
def Edit.call (e : Edit) : Prog V (InPlace Graph Reply) := do
  match e with
  | .addBlock => return do return .number (← InPlace.addBlock).index
  | .addParam b ty => bound (InPlace.addParam b (← ty.resolve none))
  | .addParamWith b ty op => bound (InPlace.addParamWith b (← ty.resolve none) (← op.resolve none))
  | .addParamAt b i ty op => bound (InPlace.addParamAt b i (← ty.resolve none) (← op.resolve none))
  | .push s => bound (InPlace.push (← s.resolve none))
  | .pushTo b s => bound (InPlace.pushTo b (← s.resolve none))
  | .prepend s => bound (InPlace.prepend (← s.resolve none))
  | .prependTo b s => bound (InPlace.prependTo b (← s.resolve none))
  | .insertBefore v s => bound (InPlace.insertBefore v (← s.resolve none))
  | .insertAfter v s => bound (InPlace.insertAfter v (← s.resolve none))
  | .set v s =>
    let s ← s.resolve none
    return do return .statement? (some (← InPlace.set v s))
  | .delete v => return do return .statement? (some (← InPlace.delete v))
  | .replaceOperands pairs =>
    let pairs ← pairs.resolve none
    let new := fun op : Operand => (pairs.find? fun p => op == p.1).map Prod.snd
    return do return .number (← InPlace.replaceOperandsBy (fun op => pure (new op)) ())
  | .addBranch b br =>
    let br ← br.resolve none
    return do
      InPlace.addBranch b br
      return .nothing
  | .internLine file line => return do return .number (← InPlace.internLine ⟨file, line⟩)
  | .prune => return do
    let (g, n) := (← get).prune
    MonadStateOf.set g
    return .number n
where
  /-- The call of an edit that hands out a variable. -/
  bound (x : InPlace Graph Variable) : Prog V (InPlace Graph Reply) :=
    return do return .number (← x).index

/-- Makes an edit in place. Whether it is refused or not, there is a graph afterwards. -/
def Edit.run (g : Graph) (e : Edit) : Prog V (Except GraphError Reply × Graph) := do
  return (← e.call).on g

/-- Answers a question. -/
def Query.run (g : Graph) (q : Query) : Except GraphError Reply :=
  match q with
  | .line n => .ok (.text? ((g.line? n).map SourceLine.text))
  | .get v => .ok (.statement? (g.get? v))
  | .standing v => .ok (.standing (g.standing v))
  | .keys => .ok (.variables g.keys)
  | .block b => (g.block b).map .block
  | .returned b => .ok (.operand? (g.returned? b))
  | .all => .ok (.graph g)
  | .verify => g.verify.map fun _ => .nothing
  | .flow => .ok (.flow g)

/-- The call that makes an edit of a pass in place, at the statement of `v`, which the edit may mean
without naming it whether or not the pass stands there. -/
def PassEdit.call (v : Variable) (e : PassEdit) : Prog V (InPlace EditBuffer Reply) := do
  match e with
  | .before s =>
    let s ← s.resolve (some v)
    return do return .number (← EditBuffer.insertBefore v s).index
  | .after s =>
    let s ← s.resolve (some v)
    return do return .number (← EditBuffer.insertAfter v s).index
  | .replace s =>
    let s ← s.resolve (some v)
    return do
      EditBuffer.replace v s
      return .nothing
  | .delete => return do return .statement? (some (← EditBuffer.delete v))
  | .substitute op =>
    let op ← op.resolve (some v)
    return do
      EditBuffer.substitute v op
      return .nothing

/-- Makes an edit of a pass. Whether it is refused or not, there is a pass afterwards. -/
def PassEdit.run (v : Variable) (p : EditBuffer) (e : PassEdit) :
    Prog V (Except GraphError Reply × EditBuffer) := do
  return (← e.call v).on p

/-! ## Whole passes -/

/-- The statement calls exactly this global. -/
def callsGlobal (name : String) (s : Statement) : Bool :=
  match s.operation with
  | .call (.global callee) _ => callee == name
  | _ => false

/-- Makes edits at the statement where the pass stands, up to the first that is refused. -/
def editHere (edits : List PassEdit) (v : Variable) (p : EditBuffer) : Prog V EditBuffer :=
  edits.foldlM editOne p
where
  editOne (p : EditBuffer) (e : PassEdit) : Prog V EditBuffer := do
    let (reply, p) ← e.run v p
    let _ ← Prog.ofGraph reply
    return p

/-- Goes through `count` more statements and makes the edits at each, or only at calls of a
global. -/
def editEach (calls : Option String) (edits : List PassEdit) :
    (count : Nat) → EditBuffer → Prog V EditBuffer
  | 0, p => return p
  | count + 1, p => do
    let (current, p) := EditBuffer.advance.on p
    match ← Prog.ofGraph current with
    | none => return p
    | some v =>
      let chosen := calls.all fun name => (p.get? v).any (callsGlobal name)
      editEach calls edits count (← if chosen then editHere edits v p else pure p)

/-- The graph after one pass that makes the edits at each of its statements. -/
def passOver (calls : Option String) (edits : List PassEdit) (g : Graph) : Prog V Graph := do
  let p ← editEach calls edits g.size (.start g)
  Prog.ofGraph p.finish

end Interpose.Script
