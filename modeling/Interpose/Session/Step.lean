import Interpose.Script.Meaning
import Interpose.Graph.Canonical
import Interpose.Run.Graph

/-!
# Steps of a session

A session is a host with its memory, and a list of steps taken on it. What a step does is a deed
like that of a native: it makes requests to the host and works on the graphs, the compiled graphs
and the pass in the memory.
-/

set_option autoImplicit false

namespace Interpose

open Script

/-- What a rule of a new hook does. -/
inductive HandlerPlan where
  | transform (steps : List Action)
  | native (n : Native)

/-- A rule of a new hook. Names in its pattern are resolved when the hook is registered. -/
structure RulePlan where
  pattern : Late SigPattern
  handler : HandlerPlan

/-- One step of a session. -/
inductive Step where
  -- functions and globals
  | define (file src : String)
  | defineNative (name : String) (n : Native)
  | installPrelude
  | setGlobal (name : String) (v : Late Value)
  | resolve (name : String)
  | funcId (name : String)
  | funcName (f : Late Value)
  | provenance (sig : Late Signature)
  | call (f : Late Value) (args : Late (List Value))
  | callGlobal (name : String) (args : Late (List Value))
  -- hooks
  | registerHook (name : String) (rules : List RulePlan)
  | hookSummary (k : HookId)
  | hookCall (k : HookId) (args : Late (List Value))
  /-- The text of the graph that a hook runs. -/
  | hookText (k : HookId) (sig : Late Signature)
  | memo (k : HookId) (sig : Late Signature)
  | refresh (k : HookId) (sig : Option (Late Signature))
  /-- Keep the compiled graph that a hook remembers. -/
  | saveUnit (k : HookId) (sig : Late Signature) (unit : String)
  /-- Store the graph that a hook runs. -/
  | storeHookGraph (k : HookId) (sig : Late Signature) (register : String)
  -- compiled graphs
  | compile (register unit : String)
  | invoke (unit : String) (args : Late (List Value))
  | unitText (unit : String)
  /-- Whether two names stand for one compilation. -/
  | sameUnit (unit other : String)
  -- stored graphs
  | new (register : String) (sig : Option (Late Signature))
  | copy (register source : String)
  | emptyLike (register source : String)
  | canonical (register source : String)
  | graphOf (register : String) (f : Late Value)
  | sameShape (register other : String)
  | edit (register : String) (e : Edit)
  | query (register : String) (q : Query)
  -- the pass
  | startPass (register : String)
  | advance
  | current
  | statementInPass (v : Variable)
  | countInPass
  | editInPass (v : Variable) (e : PassEdit)
  | finishPass (register : String)

/-- The register whose graph is shown after the step. -/
def Step.shown? : Step → Option String
  | .storeHookGraph _ _ r | .new r _ | .copy r _ | .emptyLike r _ | .canonical r _ | .graphOf r _
  | .finishPass r => some r
  | .edit _ (.internLine _ _) => none
  | .edit r _ => some r
  | _ => none

/-! ## What the steps work on -/

/-- Stores a graph. -/
def storeGraph (register : String) (g : Graph) : Deed Unit :=
  Prog.update fun (m : Memory) => { m with graphs := m.graphs.insert register g }

/-- Keeps a compiled graph. -/
def storeUnit (name : String) (u : Compiled) : Deed Unit :=
  Prog.update fun (m : Memory) => { m with units := m.units.insert name u }

/-- The compiled graph of that name. -/
def keptUnit (name : String) : Deed Compiled := do
  match Table.get? (Memory.units (← Prog.memory)) name with
  | some u => return u
  | none => throw (.custom "no unit")

/-- The pass that is under way. -/
def thePass : Deed EditBuffer := do
  match Memory.pass (← Prog.memory) with
  | some p => return p
  | none => throw (.custom "no pipe")

/-- Sets the pass that is under way. -/
def setPass (p : Option EditBuffer) : Deed Unit :=
  Prog.update fun (m : Memory) => { m with pass := p }

/-- The hook of that number. A step on a hook itself asks for it before it resolves any name. -/
def theHook (k : HookId) : Deed (Hook words) := Prog.request (.hook k)

/-- The number of the function that a value refers to. -/
def functionOf (v : Late Value) : Deed FuncId := do
  match ← v.resolve none with
  | .func f => return f
  | v => throw (.notFunction v)

/-- The rule that is registered, with counters of its own. -/
def RulePlan.own (r : RulePlan) : Deed (Rule (Handler words)) := do
  let pattern ← r.pattern.resolve none
  match r.handler with
  | .transform steps => return ⟨pattern, .transform (← Deed.own steps)⟩
  | .native n => return ⟨pattern, .native (← Deed.own n)⟩

/-! ## What the steps do -/

/-- What a step does. -/
def Step.deed : Step → Deed Reply
  | .define file src => return .functions (← Prog.request (.define file src))
  | .defineNative name n => do
    let f : FuncId ← Prog.request (.defineNative name (← Deed.own n))
    return .number f.index
  | .installPrelude => do
    Prog.request .installPrelude
    return .nothing
  | .setGlobal name v => do
    Prog.request (.setGlobal name (← v.resolve none))
    return .nothing
  | .resolve name => return .value (← Prog.request (.resolve name))
  | .funcId name => do
    let f : Option FuncId ← Prog.request (.funcId name)
    return .number? (f.map (·.index))
  | .funcName f => return .text? (← Prog.request (.funcName (← functionOf f)))
  | .provenance sig => return .provenance (← Prog.request (.provenance (← sig.resolve none)))
  | .call f args => do
    let f ← f.resolve none
    let args ← args.resolve none
    return .value (← Prog.request (.call f args))
  | .callGlobal name args => return .value (← Deed.callGlobal name (← args.resolve none))
  | .registerHook name rules => do
    let rules ← rules.mapM RulePlan.own
    let k : HookId ← Prog.request (.registerHook ⟨name, rules⟩)
    return .number k.index
  | .hookSummary k => do
    return .hook (← theHook k).summary
  | .hookCall k args => do
    let _ ← theHook k
    return .value (← Prog.request (.hookCall k (← args.resolve none)))
  | .hookText k sig => do
    let _ ← theHook k
    let g : Option Graph ← Prog.request (.hookGraph k (← sig.resolve none))
    return .text? (g.map Graph.text)
  | .memo k sig => do
    let hook ← theHook k
    return .memo (hook.memo (← sig.resolve none))
  | .refresh k sig => do
    let sig ← sig.mapM (·.resolve none)
    return .truth (← Prog.request (.refresh k sig))
  | .saveUnit k sig unit => do
    let hook ← theHook k
    match hook.unit? (← sig.resolve none) with
    | some u =>
      storeUnit unit u
      return .truth true
    | none => return .truth false
  | .storeHookGraph k sig register => do
    let g : Option Graph ← Prog.request (.hookGraph k (← sig.resolve none))
    match g with
    | some g =>
      storeGraph register g
      return .truth true
    | none => return .truth false
  | .compile register unit => do
    let u : Compiled ← Prog.request (.compile (← Deed.graph register))
    storeUnit unit u
    return .number u.graph.arity
  | .invoke unit args => do
    let u ← keptUnit unit
    return .value (← Prog.request (.invoke u (← args.resolve none)))
  | .unitText unit => return .text? ((← keptUnit unit).graph?.map Graph.text)
  | .sameUnit unit other => do
    let u ← keptUnit unit
    return .truth (u.serial == (← keptUnit other).serial)
  | .new register none => do
    storeGraph register .empty
    return .nothing
  | .new register (some sig) => do
    let p : Provenance ← Prog.request (.provenance (← sig.resolve none))
    storeGraph register (.ofProvenance p)
    return .nothing
  | .copy register source => do
    storeGraph register (← Deed.graph source)
    return .nothing
  | .emptyLike register source => do
    storeGraph register (← Deed.graph source).emptyLike
    return .nothing
  | .canonical register source => do
    storeGraph register (← Deed.graph source).canonical
    return .nothing
  | .graphOf register f => do
    let g : Graph ← Prog.request (.graphOf (← functionOf f))
    storeGraph register g
    return .nothing
  | .sameShape register other => do
    let g ← Deed.graph register
    return .truth (g.sameShape (← Deed.graph other))
  | .edit register e => do
    let (reply, g) ← e.run (← Deed.graph register)
    storeGraph register g
    Prog.ofGraph reply
  | .query register q => do Prog.ofGraph (q.run (← Deed.graph register))
  | .startPass register => do
    setPass (some (.start (← Deed.graph register)))
    return .nothing
  | .advance => do
    let (answer, p) := EditBuffer.advance.on (← thePass)
    setPass (some p)
    return .place (← Prog.ofGraph answer)
  | .current => return .place (← thePass).current
  | .statementInPass v => return .statement? ((← thePass).get? v)
  | .countInPass => return .number (← thePass).varCount
  | .editInPass v e => do
    let (reply, p) ← e.run v (← thePass)
    setPass (some p)
    Prog.ofGraph reply
  | .finishPass register => do
    let p ← thePass
    setPass none
    storeGraph register (← Prog.ofGraph p.finish)
    return .nothing

end Interpose
