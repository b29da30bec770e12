import Interpose.Host.Basic

/-!
# Requests and the programs that make them

Natives and transforms act on a host by requests only. What one of them does is a program: it reads
and writes the memory that natives and transforms share, makes requests, and goes on with the
answers. A request that fails gives the fault as its answer, and the program decides what becomes of
it.
-/

set_option autoImplicit false

namespace Interpose

/-- What can be asked of a host. -/
inductive Request (V : Vocabulary) where
  /-- What a global name stands for. -/
  | resolve (name : String)
  /-- The function that a global name stands for. -/
  | funcId (name : String)
  /-- The name under which a function was last defined. -/
  | funcName (f : FuncId)
  /-- Define the functions of a source text. -/
  | define (file src : String)
  | defineNative (name : String) (n : V.Native)
  /-- Define the primitive operators. -/
  | installPrelude
  | setGlobal (name : String) (v : Value)
  | registerHook (plan : HookPlan V)
  /-- A hook with what it remembers. -/
  | hook (k : HookId)
  /-- Forget what a hook decided, for a signature or altogether. -/
  | refresh (k : HookId) (sig : Option Signature)
  /-- Where the graph for calls of a signature comes from. -/
  | provenance (sig : Signature)
  /-- The graph of a source function. -/
  | graphOf (f : FuncId)
  | compile (g : Graph)
  /-- Call a compiled graph. -/
  | invoke (u : Compiled) (args : List Value)
  | call (f : Value) (args : List Value)
  /-- Call a hook itself; the first argument is the intercepted callee. -/
  | hookCall (k : HookId) (args : List Value)
  /-- The graph that a hook runs for calls of a signature. -/
  | hookGraph (k : HookId) (sig : Signature)

/-- What the answer to a request is. -/
def Request.Answer {V : Vocabulary} : Request V → Type
  | .resolve _ => Value
  | .funcId _ => Option FuncId
  | .funcName _ => Option String
  | .define _ _ => List FuncId
  | .defineNative _ _ => FuncId
  | .installPrelude => Unit
  | .setGlobal _ _ => Unit
  | .registerHook _ => HookId
  | .hook _ => Hook V
  | .refresh _ _ => Bool
  | .provenance _ => Provenance
  | .graphOf _ => Graph
  | .compile _ => Compiled
  | .invoke _ _ => Value
  | .call _ _ => Value
  | .hookCall _ _ => Value
  | .hookGraph _ _ => Option Graph

/-- What a native or a transform does. -/
inductive Prog (V : Vocabulary) (α : Type) where
  | done (a : α)
  | fail (e : Fault)
  /-- Read the memory. -/
  | read (next : V.Memory → Prog V α)
  /-- Write the memory. -/
  | write (m : V.Memory) (next : Prog V α)
  /-- Make a request and go on with its answer. -/
  | ask (r : Request V) (next : Except Fault r.Answer → Prog V α)

namespace Prog

variable {V : Vocabulary} {α β : Type}

/-- One program after another. A fault ends both. -/
def bind : Prog V α → (α → Prog V β) → Prog V β
  | .done a, f => f a
  | .fail e, _ => .fail e
  | .read next, f => .read fun m => (next m).bind f
  | .write m next, f => .write m (next.bind f)
  | .ask r next, f => .ask r fun answer => (next answer).bind f

instance : Monad (Prog V) where
  pure := .done
  bind := bind

/-- The program with another to take over where it ends with a fault. -/
def rescue : Prog V α → (Fault → Prog V α) → Prog V α
  | .done a, _ => .done a
  | .fail e, handle => handle e
  | .read next, handle => .read fun m => (next m).rescue handle
  | .write m next, handle => .write m (next.rescue handle)
  | .ask r next, handle => .ask r fun answer => (next answer).rescue handle

instance : MonadExceptOf Fault (Prog V) where
  throw := .fail
  tryCatch := rescue

/-- A result that needs no program. -/
def ofExcept : Except Fault α → Prog V α
  | .ok a => .done a
  | .error e => .fail e

/-- A result that may be an error of a graph. -/
def ofGraph (r : Except GraphError α) : Prog V α := ofExcept (r.mapError .graph)

/-- Makes a request; its fault becomes the program's. -/
def request (r : Request V) : Prog V r.Answer := .ask r ofExcept

/-- The memory. -/
def memory : Prog V V.Memory := .read .done

/-- Changes the memory. -/
def update (f : V.Memory → V.Memory) : Prog V Unit := .read fun m => .write (f m) (.done ())

end Prog

/-- The call that a transform is made for. -/
structure Occasion where
  hook : HookId
  signature : Signature

/-- What the words of a vocabulary mean. A native gets all arguments of the call; in a rule of a
hook these include the callee. A transform gets the callee's graph, and gives the graph to run or
none to call the callee as it is. -/
structure Embedding (V : Vocabulary) where
  native : V.Native → List Value → Prog V Value
  transform : V.Transform → Occasion → Graph → Prog V (Option Graph)

end Interpose
