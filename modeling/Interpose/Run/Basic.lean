import Interpose.Fault

/-!
# Runs

A run goes through a state and ends with a value or a fault; the state that it has reached is kept
in both cases. Programs may loop, so a run is given fuel and may also end without either when that
is used up. What a program can refer to outside itself is gathered in its surroundings: the values
of global names, and the calls of other functions.
-/

set_option autoImplicit false

namespace Interpose

/-- A run over a state: a value or a fault and the state reached, or nothing when the fuel is used
up. -/
abbrev Run (σ : Type) (α : Type) := ExceptT Fault (StateT σ Option) α

namespace Run

variable {σ α : Type}

/-- The run that has no fuel. -/
def outOfFuel : Run σ α := ExceptT.mk fun _ => none

/-- A result that needs no run. -/
def ofExcept (r : Except Fault α) : Run σ α := ExceptT.mk fun s => some (r, s)

/-- A result that may be a trap. -/
def ofTrap (r : Except Trap α) : Run σ α := ofExcept (r.mapError .trap)

/-- A result that may be an error of a graph. -/
def ofGraph (r : Except GraphError α) : Run σ α := ofExcept (r.mapError .graph)

/-- The run with its fault given out as a result. -/
def observe (x : Run σ α) : Run σ (Except Fault α) :=
  ExceptT.mk fun s => (x s).map fun (r, s) => (.ok r, s)

end Run

/-- What surrounds a program. -/
structure Surroundings (σ : Type) where
  /-- What a global name stands for in a state. -/
  global : σ → String → Option Value
  /-- Calls a value with arguments. -/
  call : Value → List Value → Run σ Value

end Interpose
