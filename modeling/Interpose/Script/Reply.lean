import Interpose.Graph.Stabilize
import Interpose.Host.Request

/-!
# Replies

What a step of a script or a session answers.
-/

set_option autoImplicit false

namespace Interpose

/-- What a graph knows about a variable. -/
structure Standing where
  /-- A statement binds it. -/
  isStatement : Bool
  isDefined : Bool
  isUsed : Bool
  block : Option BlockId

/-- How the variable stands in the graph. -/
def Graph.standing (g : Graph) (v : Variable) : Standing where
  isStatement := g.contains v
  isDefined := g.isDefined v
  isUsed := g.isUsed v
  block := g.definingBlock? v

/-- What can be told about a hook: the texts of its rules, with what each of them does, and how many
decisions it remembers. -/
structure HookSummary where
  name : String
  rules : List String
  remembered : Nat

/-- What a hook remembers for a signature. -/
structure MemoSummary where
  isRemembered : Bool
  isUnit : Bool
  remembered : Nat

/-- What a step answers. -/
inductive Reply where
  | nothing
  | truth (b : Bool)
  | number (n : Nat)
  | number? (n : Option Nat)
  | text? (t : Option String)
  | value (v : Value)
  | statement? (s : Option Statement)
  | operand? (op : Option Operand)
  | variables (vs : List Variable)
  | place (v : Option Variable)
  | block (b : Block)
  | standing (s : Standing)
  /-- A graph in full. -/
  | graph (g : Graph)
  /-- The control flow of a graph, down to its list of dominators. -/
  | flow (g : Graph)
  | provenance (p : Provenance)
  | functions (fs : List FuncId)
  | hook (h : HookSummary)
  | memo (m : MemoSummary)

/-- What a rule does, in a word. -/
def Handler.kind {V : Vocabulary} : Handler V → String
  | .transform _ => "Transform"
  | .native _ => "Native"

/-- What can be told about the hook. -/
def Hook.summary {V : Vocabulary} (h : Hook V) : HookSummary where
  name := h.name
  rules := h.rules.map fun r => s!"{r.pattern.text} {r.handler.kind}"
  remembered := h.decisions.size

/-- The compiled graph that the hook remembers for a signature. -/
def Hook.unit? {V : Vocabulary} (h : Hook V) (sig : Signature) : Option Compiled :=
  match h.decisions.get? sig with
  | some (.unit u) => some u
  | _ => none

/-- What the hook remembers for the signature. -/
def Hook.memo {V : Vocabulary} (h : Hook V) (sig : Signature) : MemoSummary where
  isRemembered := h.decisions.contains sig
  isUnit := (h.unit? sig).isSome
  remembered := h.decisions.size

end Interpose
