import Interpose.Session.Step
import Interpose.Host.Perform

/-!
# Playing a session

The steps are taken one after another on one host. A step that fails does not end the session: what
it did up to its failure stays, and its answer is the fault.
-/

set_option autoImplicit false

namespace Interpose

open Script

/-- The answer to a step. -/
structure Answer where
  result : Except Fault Reply
  /-- For a step on a register: the text of the graph in it afterwards, if there is one. -/
  shown : Option (Option String)
  /-- What was logged during the step. -/
  log : List String

/-- How a session begins. -/
structure Setting where
  /-- No operators are registered. -/
  isBare : Bool
  backend : Backend
  maxDepth : Nat

/-- The host of a session that begins. -/
def Setting.host (s : Setting) : Host words :=
  if s.isBare then .bare s.backend s.maxDepth Memory.empty
  else .create s.backend s.maxDepth Memory.empty

/-- Takes a step. -/
def Step.take (fuel : Nat) (s : Step) (h : Host words) : Option (Answer × Host words) := do
  let quiet : Memory := { (h.memory : Memory) with log := [] }
  let (result, h) ← (s.deed.exec (perform meaning fuel)).run { h with memory := quiet }
  let m : Memory := h.memory
  return (⟨result, s.shown?.map fun r => (m.graphs.get? r).map Graph.text, m.log⟩, h)

/-- Takes steps in order. -/
def play (fuel : Nat) : List Step → Host words → Option (List Answer)
  | [], _ => some []
  | s :: rest, h => do
    let (a, h) ← s.take fuel h
    return a :: (← play fuel rest h)

end Interpose
