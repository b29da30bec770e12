import Interpose.Script.Basic

/-!
# What scripts do

The programs that natives and transforms stand for. A native works on the arguments of one call. A
transform takes its steps in order on the callee's graph; each step gets the graph that the step
before has left, and a step that declines ends the transform without a graph.
-/

set_option autoImplicit false

namespace Interpose.Script

/-! ## Natives -/

/-- A call in the log. -/
def callText (tag : String) (args : List Value) : String :=
  let inner := ", ".intercalate (args.map Value.text)
  s!"{tag}({inner})"

/-- What a native does with the arguments of a call. -/
def Native.deed (n : Owner Native) (args : List Value) : Deed Value := do
  match n.what with
  | .const value => value.resolve none
  | .size => return .int (.ofNat args.length)
  | .arg i =>
    match args[i]? with
    | some v => return v
    | none => throw (.trap (.arityMismatch (i + 1) args.length))
  | .log tag =>
    Deed.logLine (callText tag args)
    return args.getLast?.getD .nothing
  | .count => return .int (.ofNat (← Deed.count n.counter))
  | .callGlobal name skip => Deed.callGlobal name (args.drop skip)
  | .apply =>
    match args with
    | f :: rest => Prog.request (.call f rest)
    | [] => throw (.custom "apply without arguments")
  | .define src =>
    let _ ← Deed.define src
    return .nothing
  | .refresh k => return .bool (← Prog.request (.refresh k none))
  | .fail text => throw (.custom text)

/-! ## Transforms -/

/-- A run in the log. -/
def runText (number : Nat) (o : Occasion) : String :=
  s!"run {number} {o.hook.text} {o.signature.text} {o.signature.size}"

/-- The graph with all calls routed through a hook. -/
def recurse (k : HookId) (g : Graph) : Graph × Nat := g.routeCalls (.const (.hook k))

mutual

/-- Takes one step on a graph. There is no graph after a step that declines. -/
def Action.deed (o : Occasion) (number : Nat) (g : Graph) : Action → Deed (Option Graph)
  | .recurse logs => do
    let (g, n) := recurse o.hook g
    if logs then Deed.logLine s!"recurse {n}"
    return some g
  | .decline => return none
  | .fail text => throw (.custom s!"{text} {o.signature.text}")
  | .log => do
    Deed.logLine (runText number o)
    return some g
  | .logGraph => do
    Deed.logLine g.text
    return some g
  | .on callee steps => do
    match ← Prog.request (.funcId callee) with
    | some f =>
      if o.signature.callee? = some (.func f) then actAll o number g steps else return some g
    | none => return some g
  | .define src => do
    let _ ← Deed.define src
    return some g
  | .defineNative name n => do
    let _ ← Prog.request (.defineNative name (← Deed.own n))
    return some g
  | .use register => return some (← Deed.graph register)
  | .each calls edits => return some (← passOver calls edits g)
  | .edit e => do
    let (reply, g) ← e.run g
    let _ ← Prog.ofGraph reply
    return some g
  | .query q => do
    let _ ← Prog.ofGraph (q.run g)
    return some g

/-- Takes steps in order, up to one that declines. -/
def actAll (o : Occasion) (number : Nat) (g : Graph) : List Action → Deed (Option Graph)
  | [] => return some g
  | a :: rest => do
    match ← a.deed o number g with
    | some g => actAll o number g rest
    | none => return none

end

/-- What scripts do. -/
def meaning : Embedding words where
  native n args := Native.deed n args
  transform t o g := do actAll o (← Deed.count t.counter) g t.what

end Interpose.Script
