import Interpose.Dispatch.Pattern

/-!
# Choosing a rule

Rules stand in the order of their registration. The choice goes through them once and gives up the
rule that it holds only for a strictly more specific one, so that of two rules of which neither is
more specific the earlier stays.
-/

set_option autoImplicit false

namespace Interpose

/-- A pattern, and what is done with the calls that it accepts. -/
structure Rule (α : Type) where
  pattern : SigPattern
  handler : α

/-- The rule to hold after meeting `r`, when `held` was held before it. -/
def Rule.prefer {α : Type} (size : Nat) (held : Option (Rule α)) (r : Rule α) : Option (Rule α) :=
  match held with
  | some b => if r.pattern.moreSpecific b.pattern size then some r else some b
  | none => some r

/-- The most specific rule that accepts the signature. -/
def select {α : Type} (rules : List (Rule α)) (sig : Signature) : Option (Rule α) :=
  (rules.filter (·.pattern.accepts sig)).foldl (Rule.prefer sig.size) none

end Interpose
