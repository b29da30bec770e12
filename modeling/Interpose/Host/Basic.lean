import Interpose.Table
import Interpose.Fault
import Interpose.Value.Primitive
import Interpose.Dispatch.Select
import Interpose.Graph.Check
import Interpose.Graph.Prune
import Interpose.Lowering.Function
import Interpose.Source.Grammar

/-!
# Hosts

A host is what programs live in: a list of functions, a list of hooks, and a table of what global
names stand for. A function is a source function, a primitive operator or a native. A hook
intercepts calls: it has rules, and it remembers what it decided for each signature.

What natives and transforms do is not part of a host. They are named by the words of a vocabulary,
and the host keeps the memory that they share.

Graphs are compiled before they run. A compiled graph is kept for every source function that was
called directly, and dropped when the function is defined anew. What hooks remember stays until it
is refreshed.
-/

set_option autoImplicit false

namespace Interpose

/-- The words for natives and for transforms, and the memory that they share. -/
structure Vocabulary where
  Native : Type
  Transform : Type
  Memory : Type

/-! ## Compiled graphs -/

/-- How graphs are compiled. -/
structure Backend where
  /-- Blocks that cannot be reached are removed. -/
  prunes : Bool
  /-- A graph that is not in order is refused. -/
  verifies : Bool
  /-- The compiled graph is not given out again. -/
  hides : Bool

/-- A compiled graph. -/
structure Compiled where
  /-- Which compilation it is the result of. -/
  serial : Nat
  graph : Graph
  hidden : Bool

/-- The graph that a compiled one gives out. -/
def Compiled.graph? (u : Compiled) : Option Graph := if u.hidden then none else some u.graph

/-- The graph that runs in place of the given one. -/
def Backend.prepare (b : Backend) (g : Graph) : Except Fault Graph :=
  let g := if b.prunes then g.prune.1 else g
  if b.verifies then
    match g.verify with
    | .ok () => .ok g
    | .error e => .error (.unverified e)
  else .ok g

/-! ## Functions and hooks -/

variable (V : Vocabulary)

/-- What a function does when it is called. -/
inductive Body where
  | source (definition : Source.Function) (file : String)
  | primitive (op : Primitive)
  | native (n : V.Native)

/-- A registered function. -/
structure Function where
  name : String
  body : Body V

/-- What a rule of a hook does with the calls that it accepts. -/
inductive Handler where
  /-- Changes the callee's graph and runs the result. -/
  | transform (t : V.Transform)
  /-- Runs in place of the call. -/
  | native (n : V.Native)

/-- What a hook decided for a signature. -/
inductive Decision where
  /-- Run this graph. -/
  | unit (u : Compiled)
  /-- Call the callee as it is. -/
  | direct

/-- A hook's name and rules. An empty name is no name. -/
structure HookPlan where
  name : String
  rules : List (Rule (Handler V))

/-- A registered hook. -/
structure Hook extends HookPlan V where
  decisions : Table Signature Decision

/-- A host. -/
structure Host where
  functions : Array (Function V)
  hooks : Array (Hook V)
  globals : Table String Value
  /-- The compiled graphs of functions that were called directly. -/
  compiled : Table FuncId Compiled
  backend : Backend
  maxDepth : Nat
  /-- How many calls are in progress, a hook's counted twice. -/
  depth : Nat
  /-- How many graphs were compiled. -/
  serial : Nat
  memory : V.Memory

variable {V}

namespace Host

/-! ## Lookup -/

/-- What a global name stands for. -/
def resolve (h : Host V) (name : String) : Except Fault Value :=
  match h.globals.get? name with
  | some v => .ok v
  | none => .error (.trap (.undefinedGlobal name))

/-- The function that a global name stands for. -/
def funcId? (h : Host V) (name : String) : Option FuncId :=
  match h.globals.get? name with
  | some (.func f) => some f
  | _ => none

def function? (h : Host V) (f : FuncId) : Option (Function V) := h.functions[f.index]?

def hook? (h : Host V) (k : HookId) : Option (Hook V) := h.hooks[k.index]?

/-- The function of that number, which must exist. -/
def function (h : Host V) (f : FuncId) : Except Fault (Function V) :=
  match h.function? f with
  | some fn => .ok fn
  | none => .error (.unknownFunction f)

/-- The hook of that number, which must exist. -/
def hook (h : Host V) (k : HookId) : Except Fault (Hook V) :=
  match h.hook? k with
  | some hook => .ok hook
  | none => .error (.unknownHook k)

/-! ## Definitions -/

/-- The host with a new function. Its name stands for it from now on. -/
def addFunction (h : Host V) (fn : Function V) : Host V × FuncId :=
  let f : FuncId := ⟨h.functions.size⟩
  ({ h with functions := h.functions.push fn, globals := h.globals.insert fn.name (.func f) }, f)

/-- The host with another function under a number. Its compiled graph is dropped. -/
def replaceFunction (h : Host V) (f : FuncId) (fn : Function V) : Host V :=
  { h with functions := h.functions.setIfInBounds f.index fn, compiled := h.compiled.erase f }

/-- The host with a function defined. A name that stands for a function keeps its number. -/
def install (h : Host V) (fn : Function V) : Except Fault (Host V × FuncId) :=
  match h.globals.get? fn.name with
  | some (.func f) =>
    if f.index < h.functions.size then .ok (h.replaceFunction f fn, f)
    else .error (.unregistered fn.name f)
  | some (.hook _) => .error (.boundToHook fn.name)
  | _ => .ok (h.addFunction fn)

/-- The host with functions defined one after another, up to the first that is refused. -/
def installAll (h : Host V) : List (Function V) → Host V × Except Fault (List FuncId)
  | [] => (h, .ok [])
  | fn :: rest =>
    match h.install fn with
    | .error e => (h, .error e)
    | .ok (h, f) =>
      let (h, result) := h.installAll rest
      (h, result.map (f :: ·))

/-- The primitive operators as functions. -/
def preludeFunctions : List (Function V) := Primitive.all.map fun p => ⟨p.name, .primitive p⟩

/-- The functions of a source text, which come from a file. -/
def sourceFunctions (file src : String) : Except Fault (List (Function V)) :=
  match Source.readProgram src with
  | .ok fs => .ok (fs.map fun f => ⟨f.name, .source f file⟩)
  | .error e => .error (.source e)

/-- The host with every function of a source text defined. -/
def define (h : Host V) (file src : String) : Host V × Except Fault (List FuncId) :=
  match sourceFunctions file src with
  | .ok fns => h.installAll fns
  | .error e => (h, .error e)

/-- The host with a name standing for a value. -/
def setGlobal (h : Host V) (name : String) (v : Value) : Host V :=
  { h with globals := h.globals.insert name v }

/-- The host with a hook, for which its name stands if it has one. -/
def registerHook (h : Host V) (plan : HookPlan V) : Host V × HookId :=
  let k : HookId := ⟨h.hooks.size⟩
  let hooks := h.hooks.push ⟨plan, .empty⟩
  let globals := if plan.name.isEmpty then h.globals else h.globals.insert plan.name (.hook k)
  ({ h with hooks, globals }, k)

/-! ## Hosts without programs -/

/-- A host in which nothing is registered. -/
def bare (backend : Backend) (maxDepth : Nat) (memory : V.Memory) : Host V where
  functions := #[]
  hooks := #[]
  globals := .empty
  compiled := .empty
  backend
  maxDepth
  depth := 0
  serial := 0
  memory

/-- A host with the primitive operators. -/
def create (backend : Backend) (maxDepth : Nat) (memory : V.Memory) : Host V :=
  preludeFunctions.foldl (fun h fn => (h.addFunction fn).1) (bare backend maxDepth memory)

/-! ## Graphs of functions -/

/-- Where the graph for calls of a signature comes from. Only source functions have one, and only
for calls that pass as many arguments as they take. -/
def provenance (h : Host V) (sig : Signature) : Except GraphError Provenance :=
  match sig.callee? with
  | some (.func f) =>
    match h.function? f with
    | some ⟨name, .source d file⟩ =>
      if sig.size = d.params.length + 1 then .ok ⟨f, name, file, d, sig⟩ else .error (.noGraph sig)
    | _ => .error (.noGraph sig)
  | _ => .error (.noGraph sig)

/-- The graph of a source function for calls about whose arguments nothing is known. -/
def graphOf (h : Host V) (f : FuncId) : Except GraphError Graph :=
  match h.function? f with
  | some ⟨_, .source d _⟩ => do
    lower (← h.provenance ⟨.func f :: d.params.map fun _ => .any⟩)
  | _ => .error (.noGraph ⟨[.func f]⟩)

/-- The host with a graph compiled. -/
def compile (h : Host V) (g : Graph) : Except Fault (Host V × Compiled) := do
  let graph ← h.backend.prepare g
  return ({ h with serial := h.serial + 1 }, ⟨h.serial, graph, h.backend.hides⟩)

/-! ## What hooks remember -/

/-- The host with one hook's decisions changed. -/
def modifyDecisions (h : Host V) (k : HookId)
    (f : Table Signature Decision → Table Signature Decision) : Host V :=
  { h with hooks := h.hooks.modify k.index fun hook => { hook with decisions := f hook.decisions } }

/-- The host in which a hook remembers a decision. -/
def remember (h : Host V) (k : HookId) (sig : Signature) (d : Decision) : Host V :=
  h.modifyDecisions k (·.insert sig d)

/-- The host in which a hook forgets what it decided, for a signature or altogether, and whether
there was anything to forget. -/
def refresh (h : Host V) (k : HookId) (sig : Option Signature) : Except Fault (Host V × Bool) := do
  let hook ← h.hook k
  match sig with
  | some sig => return (h.modifyDecisions k (·.erase sig), hook.decisions.contains sig)
  | none => return (h.modifyDecisions k fun _ => .empty, 0 < hook.decisions.size)

end Host

end Interpose
