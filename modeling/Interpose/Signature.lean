import Interpose.Value.Basic

/-!
# Call signatures

The signature of a call lists the types of everything that takes part in it, the callee first. Since
a function's type is its own, the signature names the function that is called.
-/

set_option autoImplicit false

namespace Interpose

/-- The types of a call, callee first. -/
structure Signature where
  types : List Ty
deriving Repr, DecidableEq, Inhabited

namespace Signature

/-- The signature of calling the first value with the others. -/
def ofValues (args : List Value) : Signature := ⟨args.map Value.typeOf⟩

/-- The type of the callee. -/
def callee? (sig : Signature) : Option Ty := sig.types.head?

/-- The number of positions, the callee's included. -/
def size (sig : Signature) : Nat := sig.types.length

def text (sig : Signature) : String :=
  "(" ++ ", ".intercalate (sig.types.map Ty.text) ++ ")"

@[simp] theorem size_ofValues (args : List Value) : (ofValues args).size = args.length := by
  simp [ofValues, size]

end Signature

end Interpose
