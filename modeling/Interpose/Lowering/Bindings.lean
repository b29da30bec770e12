import Interpose.Graph.Basic
import Interpose.Lowering.Names

/-!
# Bindings of names

What each bound name stands for at one point of a function: an operand of the graph. A name that is
not bound stands for the global of that name.
-/

set_option autoImplicit false

namespace Interpose

/-- Bound names and their operands, in the order of the names. -/
abbrev Bindings := List (String × Operand)

namespace Bindings

/-- The operand of a bound name. -/
def get? : Bindings → String → Option Operand
  | [], _ => none
  | (n, op) :: rest, name => if n = name then some op else get? rest name

/-- The bindings with one name bound to an operand, in place of what it was bound to. -/
def bind (name : String) (op : Operand) : Bindings → Bindings
  | [] => [(name, op)]
  | (n, o) :: rest =>
    if name < n then (name, op) :: (n, o) :: rest
    else if name = n then (name, op) :: rest
    else (n, o) :: bind name op rest

/-- The bound names. -/
def names (env : Bindings) : Names := env.map Prod.fst

/-- What a name stands for where it is read. -/
def resolve (env : Bindings) (name : String) : Operand := (env.get? name).getD (.global name)

/-- What a bound name passes to a block that takes it; `nothing` for a name that is not bound. -/
def passed (env : Bindings) (name : String) : Operand := (env.get? name).getD (.const .nothing)

/-- A name that was just bound has its new operand, and the others keep theirs. -/
theorem get?_bind (env : Bindings) (name other : String) (op : Operand) :
    (env.bind name op).get? other = if name = other then some op else env.get? other := by
  induction env with
  | nil => rfl
  | cons p rest ih =>
    obtain ⟨n, o⟩ := p
    unfold bind
    split
    · rfl
    · split
      · next h =>
        subst h
        by_cases h : name = other <;> simp [get?, h]
      · next h =>
        by_cases hn : n = other
        · have hne : name ≠ other := fun h' => h (h'.trans hn.symm)
          simp [get?, hn, hne]
        · simp [get?, hn, ih]

end Bindings

end Interpose
