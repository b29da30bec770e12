import Interpose.EditPass
import Interpose.InPlace

/-!
# Edit passes in place

A pass that stays where it is, and whose calls work on it. It takes every statement that it comes to
out of its graph, where a placeholder stays behind, and it notes the place of every statement that
it writes, so that what was written is found again without a search.

The order of checks and changes in each call is what is written down here. What a call comes to
altogether is said in `EditPass`. `finish` is that of the pass: nobody has the buffer afterwards,
and the placeholders and the places are not looked at any more.
-/

set_option autoImplicit false

namespace Interpose

/-- A pass that works in place. -/
structure EditBuffer extends EditPass where
  /-- Where written statements are in the output: the block, and the position in what is written for
  it. -/
  emitted : Table Variable (Nat × Nat)

namespace EditBuffer

/-- A buffer that stands before the first statement. -/
def start (g : Graph) : EditBuffer := { EditPass.start g with emitted := .empty }

/-- What stands for a statement that was taken out of the graph. -/
def placeholder : Statement := .plain (.operand (.const .nothing))

/-! ## Moving on -/

/-- The buffer with one more statement written to the output of the current block, and its place
noted. -/
def put (p : EditBuffer) (e : Variable × Statement) : EditBuffer :=
  { p with
    emitted := p.emitted.insert e.1 (p.block, (p.out.getD p.block []).length)
    out := p.out.modify p.block (· ++ [e]) }

/-- Writes one statement. -/
def emit (e : Variable × Statement) : InPlace EditBuffer Unit := modify (·.put e)

/-- Writes what is kept of the visited statement and what follows it, and leaves it. -/
def flush : InPlace EditBuffer Unit := do
  let current ← modifyGet fun p => (p.current, { p with current := none })
  match current with
  | none => pure ()
  | some v =>
    let staged ← modifyGet fun p => (p.staged, { p with staged := none })
    staged.forM fun s => emit (v, s)
    let after ← modifyGet fun p => (p.after, { p with after := [] })
    after.forM emit

/-- Takes the next statement out of the graph, going through the blocks that have none left. -/
def seek (p : EditBuffer) : EditBuffer :=
  if h : p.block < p.source.blocks.size then
    match p.source.blocks[p.block].body[p.next]? with
    | some (v, s) =>
      { p with
        source := p.source.modifyBlock ⟨p.block⟩ fun b =>
          { b with body := b.body.set p.next (v, placeholder) }
        next := p.next + 1
        current := some v
        staged := some s }
    | none => seek { p with block := p.block + 1, next := 0 }
  else p
termination_by p.source.blocks.size - p.block

/-- Moves to the next statement and answers with its variable, with none when all were visited. -/
def advance : InPlace EditBuffer (Option Variable) := do
  flush
  modify seek
  return (← get).current

/-- The statement of a variable as it stands: at the pass, in the output, or ahead. -/
def get? (p : EditBuffer) (v : Variable) : Option Statement :=
  if p.current = some v then p.staged
  else if p.deleted.contains v then none
  else
    match p.emitted.get? v with
    | some (b, i) => (p.out.getD b [])[i]?.map Prod.snd
    | none =>
      match p.after.lookup v with
      | some s => some s
      | none =>
        match p.source.site? v with
        | some site => if p.isAhead site then p.source.get? v else none
        | none => none

/-! ## Edits -/

/-- Hands out a variable that is bound nowhere yet. -/
def allocate : InPlace EditBuffer Variable :=
  modifyGet fun p => (p.source.fresh, { p with source.sites := p.source.sites.push .deleted })

/-- Inserts a statement before the visited one. -/
def insertBefore (v : Variable) (s : Statement) : InPlace EditBuffer Variable := do
  InPlace.ask (·.check v s true)
  let new ← allocate
  emit (new, s)
  return new

/-- Inserts a statement after the visited one and what was inserted there before. -/
def insertAfter (v : Variable) (s : Statement) : InPlace EditBuffer Variable := do
  InPlace.ask (·.check v s false)
  let new ← allocate
  modify fun p => { p with after := p.after ++ [(new, s)] }
  return new

/-- Puts another statement in the place of the visited one. -/
def replace (v : Variable) (s : Statement) : InPlace EditBuffer Unit := do
  InPlace.ask (·.check v s true)
  modify fun p => { p with deleted := p.deleted.filter (· ≠ v) }
  modify fun p => { p with staged := some s }

/-- Deletes the visited statement, and answers with it. -/
def delete (v : Variable) : InPlace EditBuffer Statement := do
  InPlace.ask (·.checkCurrent v)
  -- what is staged is taken whether or not there is something
  let staged ← modifyGet fun p => (p.staged, { p with staged := none })
  match staged with
  | none => throw (.unknownVariable v)
  | some s =>
    modify fun p => { p with deleted := v :: p.deleted }
    return s

/-- Redirects the uses of a variable to an operand. -/
def substitute (v : Variable) (op : Operand) : InPlace EditBuffer Unit := do
  if (← get).varCount ≤ v.index then throw (.unknownVariable v)
  if op.var? = some v then throw (.structural (.selfSubstitution v))
  modify fun p => { p with redirects := p.redirects.insert v op }

end EditBuffer

end Interpose
