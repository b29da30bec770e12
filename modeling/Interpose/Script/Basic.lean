import Interpose.Script.Edit

/-!
# Natives and transforms as data

A script describes what natives and transforms do. Every native and every transform that is
registered owns a counter: a native may count its calls with it, and a transform counts its runs.

The memory that they share holds, beside the counters, graphs under names, compiled graphs under
names, a log, and the pass that is under way.
-/

set_option autoImplicit false

namespace Interpose.Script

/-- What a native does. -/
inductive Native where
  | const (value : Late Value)
  /-- The number of arguments. -/
  | size
  /-- The argument at a position. -/
  | arg (i : Nat)
  /-- Writes the call to the log; the result is the last argument. -/
  | log (tag : String)
  /-- Counts the calls. -/
  | count
  /-- Calls a global with the arguments but for the first few. -/
  | callGlobal (name : String) (skip : Nat)
  /-- Calls the first argument with the others. -/
  | apply
  /-- Defines the functions of a source text. -/
  | define (src : String)
  /-- Makes a hook forget everything. -/
  | refresh (k : HookId)
  | fail (text : String)

/-- What a transform does in one of its steps. -/
inductive Action where
  /-- Routes all calls through the hook, and may log how many were changed. -/
  | recurse (logs : Bool)
  /-- Declines, and ends the transform. -/
  | decline
  | fail (text : String)
  /-- Logs the run: its number, the hook and the signature. -/
  | log
  /-- Logs the graph. -/
  | logGraph
  /-- Takes further steps if the callee is the function of a name. -/
  | on (callee : String) (steps : List Action)
  | define (src : String)
  | defineNative (name : String) (n : Native)
  /-- Goes on with a stored graph. -/
  | use (register : String)
  /-- Makes one pass over the graph. -/
  | each (calls : Option String) (edits : List PassEdit)
  | edit (e : Edit)
  | query (q : Query)

/-- Something that is registered, and the counter that it owns. -/
structure Owner (α : Type) where
  what : α
  counter : Nat

/-- What natives, transforms and sessions share. -/
structure Memory where
  graphs : Table String Graph
  units : Table String Compiled
  counters : Array Nat
  log : List String
  pass : Option EditBuffer

/-- The memory before anything is done. -/
def Memory.empty : Memory := ⟨.empty, .empty, #[], [], none⟩

/-- Scripts as the words of a host. -/
def words : Vocabulary := ⟨Owner Native, Owner (List Action), Memory⟩

/-- What a native or a transform of a script does to the host. -/
abbrev Deed := Prog words

namespace Deed

/-- The stored graph of that name. -/
def graph (name : String) : Deed Graph := do
  match Table.get? (Memory.graphs (← Prog.memory)) name with
  | some g => return g
  | none => throw (.noRegister name)

/-- Writes a line to the log. -/
def logLine (line : String) : Deed Unit :=
  Prog.update fun (m : Memory) => { m with log := m.log ++ [line] }

/-- Gives a new counter to what is about to be registered. -/
def own {α : Type} (what : α) : Deed (Owner α) := do
  let counter := (Memory.counters (← Prog.memory)).size
  Prog.update fun (m : Memory) => { m with counters := m.counters.push 0 }
  return ⟨what, counter⟩

/-- Counts one more, and answers with the number reached. -/
def count (counter : Nat) : Deed Nat := do
  let n := (Memory.counters (← Prog.memory)).getD counter 0 + 1
  Prog.update fun (m : Memory) => { m with counters := m.counters.setIfInBounds counter n }
  return n

/-- Calls what a global name stands for. -/
def callGlobal (name : String) (args : List Value) : Deed Value := do
  let f ← Prog.request (.resolve name)
  Prog.request (.call f args)

/-- The file that a text belongs to when no other is given. -/
def mainFile : String := "main.rw"

/-- Defines the functions of a source text. -/
def define (src : String) : Deed (List FuncId) := Prog.request (.define mainFile src)

end Deed

end Interpose.Script
