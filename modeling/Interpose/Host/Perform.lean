import Interpose.Host.Request
import Interpose.Run.Graph

/-!
# Answering requests

A call enters the host, which counts the calls in progress and refuses one too many. Then it depends
on the callee. A primitive or a native runs. A source function runs its compiled graph. A hook
enters a second time, for the graph that it may run, chooses a rule for the signature of the call
and goes by it:

* a native runs in place of the call;
* a transform gets the callee's graph, and what it makes of it is compiled, remembered and run.
  Where there is no graph, or the transform declines, this is remembered and the callee is called as
  it is.

Programs call each other without bound, so answering takes fuel. Every request that a program makes
on the way has one unit less.
-/

set_option autoImplicit false

namespace Interpose

/-- A run over a host. -/
abbrev Exec (V : Vocabulary) := Run (Host V)

namespace Exec

variable {V : Vocabulary} {α : Type}

/-- An answer that leaves the host as it is. -/
def ask (f : Host V → Except Fault α) : Exec V α := do Run.ofExcept (f (← get))

/-- A change of the host that may be refused. -/
def change (f : Host V → Except Fault (Host V × α)) : Exec V α := do
  let (h, a) ← Run.ofExcept (f (← get))
  set h
  return a

/-- A change of the host that stays even where its result is a fault. -/
def attempt (f : Host V → Host V × Except Fault α) : Exec V α := do
  let (h, result) := f (← get)
  set h
  Run.ofExcept result

/-- Runs with one more call in progress. -/
def entered (x : Exec V α) : Exec V α := do
  let h ← get
  if h.maxDepth ≤ h.depth then throw (.trap (.callDepthExceeded h.maxDepth))
  set { h with depth := h.depth + 1 }
  let result ← Run.observe x
  -- a fault leaves the call just as a value does
  modify fun h => { h with depth := h.depth - 1 }
  Run.ofExcept result

end Exec

section

variable {V : Vocabulary} (again : (r : Request V) → Exec V r.Answer)

/-- Runs a program, whose requests are answered by `again`. -/
def Prog.exec {α : Type} : Prog V α → Exec V α
  | .done a => pure a
  | .fail e => throw e
  | .read next => do Prog.exec (next (← get).memory)
  | .write m next => do
    modify fun h => { h with memory := m }
    Prog.exec next
  | .ask r next => do Prog.exec (next (← Run.observe (again r)))

/-- What surrounds a graph that runs in the host. -/
def hostSurroundings : Surroundings (Host V) where
  global h name := h.globals.get? name
  call f args := again (.call f args)

/-- Calls a compiled graph. -/
def Compiled.call (fuel : Nat) (u : Compiled) (args : List Value) : Exec V Value :=
  u.graph.invoke (hostSurroundings again) fuel args

/-- The compiled graph of a source function. -/
def directUnit (f : FuncId) : Exec V Compiled := do
  match (← get).compiled.get? f with
  | some u => return u
  | none =>
    let g ← Run.ofGraph ((← get).graphOf f)
    let u ← Exec.change (·.compile g)
    modify fun h => { h with compiled := h.compiled.insert f u }
    return u

variable (E : Embedding V)

/-! ## Hooks -/

/-- Decides what a hook does with calls of a signature, by one of its transforms. -/
def buildDecision (k : HookId) (sig : Signature) (t : V.Transform) : Exec V Decision := do
  match (← get).provenance sig with
  | .error _ => return .direct
  | .ok p =>
    let g ← Run.ofGraph (lower p)
    match ← (E.transform t ⟨k, sig⟩ g).exec again with
    | some g => return .unit (← Exec.change (·.compile g))
    | none => return .direct

/-- What a hook does with calls of a signature: what it remembers, or what it decides now. -/
def decide? (k : HookId) (sig : Signature) (t : V.Transform) : Exec V Decision := do
  let hook ← Exec.ask (·.hook k)
  match hook.decisions.get? sig with
  | some d => return d
  | none =>
    let d ← buildDecision again E k sig t
    -- the transform may have had the hook decide this signature meanwhile: the later decision stays
    modify (·.remember k sig d)
    return d

/-- The rule of a hook for a signature. -/
def Hook.handler (hook : Hook V) (sig : Signature) : Except Fault (Handler V) :=
  match select hook.rules sig with
  | some r => .ok r.handler
  | none => .error (.graph (.noRule hook.name sig))

/-- Handles an intercepted call. -/
def callHook (fuel : Nat) (k : HookId) (args : List Value) : Exec V Value := do
  let hook ← Exec.ask (·.hook k)
  match args with
  | [] => throw (.trap (.arityMismatch 1 0))
  | callee :: rest =>
    let sig := Signature.ofValues args
    match ← Run.ofExcept (hook.handler sig) with
    | .native n => (E.native n args).exec again
    | .transform t =>
      match ← decide? again E k sig t with
      | .unit u => u.call again fuel rest
      | .direct => again (.call callee rest)

/-- The graph that a hook runs for calls of a signature, if it runs one and gives it out. -/
def hookGraph (k : HookId) (sig : Signature) : Exec V (Option Graph) := do
  let hook ← Exec.ask (·.hook k)
  match ← Run.ofExcept (hook.handler sig) with
  | .native _ => return none
  | .transform t =>
    match ← decide? again E k sig t with
    | .unit u => return u.graph?
    | .direct => return none

/-! ## Calls -/

/-- Runs the body of a function. -/
def callFunction (fuel : Nat) (f : FuncId) (args : List Value) : Exec V Value := do
  let fn ← Exec.ask (·.function f)
  match fn.body with
  | .primitive p => Run.ofTrap (p.apply args)
  | .native n => (E.native n args).exec again
  | .source d _ =>
    if d.params.length ≠ args.length then
      throw (.trap (.arityMismatch d.params.length args.length))
    (← directUnit f).call again fuel args

/-- Calls a value. -/
def callValue (fuel : Nat) (f : Value) (args : List Value) : Exec V Value :=
  Exec.entered do
    match f with
    | .func f => callFunction again E fuel f args
    | .hook k => Exec.entered (callHook again E fuel k args)
    | v => throw (.trap (.notCallable v.typeOf))

/-! ## Requests -/

/-- Answers a request. Requests that come up on the way are answered by `again`. -/
def serve (fuel : Nat) : (r : Request V) → Exec V r.Answer
  | .resolve name => Exec.ask (·.resolve name)
  | .funcId name => Exec.ask fun h => .ok (h.funcId? name)
  | .funcName f => Exec.ask fun h => .ok ((h.function? f).map (·.name))
  | .define file src => Exec.attempt (·.define file src)
  | .defineNative name n => Exec.change (·.install ⟨name, .native n⟩)
  | .installPrelude => Exec.attempt fun h =>
    let (h, result) := h.installAll Host.preludeFunctions
    (h, result.map fun _ => ())
  | .setGlobal name v => Exec.change fun h => .ok (h.setGlobal name v, ())
  | .registerHook plan => Exec.change fun h => .ok (h.registerHook plan)
  | .hook k => Exec.ask (·.hook k)
  | .refresh k sig => Exec.change (·.refresh k sig)
  | .provenance sig => Exec.ask fun h => (h.provenance sig).mapError .graph
  | .graphOf f => Exec.ask fun h => (h.graphOf f).mapError .graph
  | .compile g => Exec.change (·.compile g)
  | .invoke u args => u.call again fuel args
  | .call f args => callValue again E fuel f args
  | .hookCall k args => callHook again E fuel k args
  | .hookGraph k sig => hookGraph again E k sig

end

/-- Answers a request within some fuel. -/
def perform {V : Vocabulary} (E : Embedding V) : Nat → (r : Request V) → Exec V r.Answer
  | 0, _ => .outOfFuel
  | n + 1, r => serve (perform E n) E n r

end Interpose
