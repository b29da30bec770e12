import Interpose.Signature

/-!
# Patterns of signatures

A pattern accepts types, and a signature pattern accepts the calls whose types are accepted position
by position. The last part of a signature pattern may stand for every position after the fixed ones.
Refinement compares what two patterns accept, and it is what makes one rule more specific than
another.
-/

set_option autoImplicit false

namespace Interpose

/-- What is accepted at one position of a call. -/
inductive Pattern where
  | any
  /-- An integer or a float. -/
  | number
  /-- A function or a hook. -/
  | callable
  | exact (ty : Ty)
deriving Repr, DecidableEq

namespace Pattern

def accepts : Pattern → Ty → Bool
  | .any, _ => true
  | .number, t => t.isNumber
  | .callable, t => t.isCallable
  | .exact t, u => t == u

/-- Everything that the first pattern accepts is accepted by the second. -/
def refines : Pattern → Pattern → Bool
  | _, .any => true
  | .number, .number => true
  | .callable, .callable => true
  | .exact t, .number => t.isNumber
  | .exact t, .callable => t.isCallable
  | .exact t, .exact u => t == u
  | _, _ => false

def text : Pattern → String
  | .any => "_"
  | .number => "Number"
  | .callable => "Callable"
  | .exact t => t.text

/-- Refinement is sound: what the finer pattern accepts, the coarser one does. -/
theorem accepts_of_refines {p q : Pattern} (h : p.refines q = true) {t : Ty}
    (ht : p.accepts t = true) : q.accepts t = true := by
  cases p <;> cases q <;> simp_all [refines, accepts]

end Pattern

/-- What is accepted as a whole call: patterns for the first positions, then one for all the rest,
or nothing more. -/
structure SigPattern where
  fixed : List Pattern
  rest : Option Pattern
deriving Repr, DecidableEq

namespace SigPattern

/-- Accepts every call. -/
def any : SigPattern := ⟨[], some .any⟩

/-- Accepts the calls of one callee. -/
def ofCallee (callee : Ty) : SigPattern := ⟨[.exact callee], some .any⟩

/-- The pattern of position `i`. -/
def at? (p : SigPattern) (i : Nat) : Option Pattern := p.fixed[i]? <|> p.rest

/-- Calls of this size can be accepted. -/
def acceptsSize (p : SigPattern) (size : Nat) : Bool :=
  match p.rest with
  | some _ => p.fixed.length ≤ size
  | none => size == p.fixed.length

def accepts (p : SigPattern) (sig : Signature) : Bool :=
  p.acceptsSize sig.size &&
    sig.types.zipIdx.all fun (t, i) => ((p.at? i).map (·.accepts t)).getD false

/-- The first pattern is more specific than the second for calls of the given size: finer or equal
at every position, and finer at one of them or the only one of the two with a bounded number of
positions. -/
def moreSpecific (p q : SigPattern) (size : Nat) : Bool :=
  match (List.range size).mapM fun i => do return (← p.at? i, ← q.at? i) with
  | none => false
  | some pairs =>
    pairs.all (fun (a, b) => a.refines b) &&
      (pairs.any (fun (a, b) => a.refines b && !b.refines a) ||
        (p.rest.isNone && q.rest.isSome))

def text (p : SigPattern) : String :=
  "(" ++ ", ".intercalate (p.fixed.map Pattern.text ++ p.rest.toList.map (·.text ++ "...")) ++ ")"

end SigPattern

end Interpose
