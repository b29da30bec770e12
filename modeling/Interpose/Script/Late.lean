import Interpose.Host.Request

/-!
# Descriptions with names in them

A script may write the name of a global where a value is meant, and an edit of a pass may mean the
statement that it is made at without naming its variable. Such a description becomes what it
describes only when it is used: each use reads the global anew.
-/

set_option autoImplicit false

namespace Interpose.Script

/-- A description of an `α`. -/
inductive Late (α : Type) where
  | known (a : α)
  /-- Depends on what a global name stands for. -/
  | global (name : String) (next : Value → Late α)
  /-- Depends on the variable of the statement that the edit is made at. -/
  | visited (next : Variable → Late α)

namespace Late

variable {α β : Type}

def bind : Late α → (α → Late β) → Late β
  | .known a, f => f a
  | .global name next, f => .global name fun v => (next v).bind f
  | .visited next, f => .visited fun v => (next v).bind f

instance : Monad Late where
  pure := .known
  bind := bind

/-- What is described, in a host and for an edit at a statement. An edit that is at no statement has
nothing that stands for it. -/
def resolve {V : Vocabulary} (place : Option Variable) : Late α → Prog V α
  | .known a => .done a
  | .global name next => .ask (.resolve name) fun
    | .ok v => (next v).resolve place
    | .error e => .fail e
  | .visited next =>
    match place with
    | some v => (next v).resolve place
    | none => .fail .nothingVisited

end Late

end Interpose.Script
