import Interpose.Source.Tree

/-!
# Names read and assigned

Sets of names are lists in the order of code points without repetition, so that everything made from
them comes out in one order. What a piece of a program reads and assigns is taken from its text
alone: a name counts as read wherever it is read, also behind an assignment to it. A name too many
costs a block parameter and changes no result.
-/

set_option autoImplicit false

namespace Interpose

/-- A set of names: in order, without repetition. -/
abbrev Names := List String

namespace Names

/-- The set with one name more. -/
def insert (name : String) : Names → Names
  | [] => [name]
  | n :: ns =>
    if name < n then name :: n :: ns
    else if name = n then n :: ns
    else n :: insert name ns

/-- The names of either set. -/
def union (a b : Names) : Names := b.foldr insert a

/-- One name more is in the set. -/
@[simp] theorem mem_insert (x name : String) (ns : Names) :
    x ∈ insert name ns ↔ x = name ∨ x ∈ ns := by
  induction ns with
  | nil => simp [insert]
  | cons n ns ih =>
    unfold insert
    split
    · exact List.mem_cons
    · split
      · next h => subst h; simp
      · rw [List.mem_cons, ih, List.mem_cons, or_left_comm]

/-- A union has the members of both. -/
@[simp] theorem mem_union (x : String) (a b : Names) : x ∈ union a b ↔ x ∈ a ∨ x ∈ b := by
  induction b with
  | nil => simp [union]
  | cons n ns ih =>
    rw [show union a (n :: ns) = insert n (union a ns) from rfl, mem_insert, ih, List.mem_cons,
      or_left_comm]

end Names

namespace Source

/-! ## Names that are read -/

mutual

/-- The names that an expression reads, added to a set. -/
def Expr.addReads : Expr → Names → Names
  | .name n, out => Names.insert n out
  | .lit _, out => out
  | .call callee args, out => Expr.addReadsAll args (callee.addReads out)
  | .choose cond onTrue onFalse, out => onFalse.addReads (onTrue.addReads (cond.addReads out))

/-- The names that the expressions of a list read, added to a set. -/
def Expr.addReadsAll : List Expr → Names → Names
  | [], out => out
  | e :: es, out => Expr.addReadsAll es (e.addReads out)

end

/-- The names that an expression reads. -/
def Expr.reads (e : Expr) : Names := e.addReads []

mutual

/-- The names that a statement reads, bodies included, added to a set. -/
def Stmt.addReads : Stmt → Names → Names
  | .assign _ _ e, out | .giveBack _ e, out | .expr _ e, out => e.addReads out
  | .ifThen _ cond onTrue, out => Stmt.addReadsAll onTrue (cond.addReads out)
  | .ifElse _ cond onTrue onFalse, out =>
    Stmt.addReadsAll onFalse (Stmt.addReadsAll onTrue (cond.addReads out))
  | .whileLoop _ cond body, out => Stmt.addReadsAll body (cond.addReads out)

/-- The names that the statements of a list read, added to a set. -/
def Stmt.addReadsAll : List Stmt → Names → Names
  | [], out => out
  | st :: rest, out => Stmt.addReadsAll rest (st.addReads out)

end

/-- The names that statements read. -/
def readsOf (body : List Stmt) : Names := Stmt.addReadsAll body []

/-! ## Names that are assigned -/

mutual

/-- The names that a statement assigns, bodies included, added to a set. -/
def Stmt.addAssigned : Stmt → Names → Names
  | .assign _ name _, out => Names.insert name out
  | .giveBack _ _, out | .expr _ _, out => out
  | .ifThen _ _ onTrue, out => Stmt.addAssignedAll onTrue out
  | .ifElse _ _ onTrue onFalse, out => Stmt.addAssignedAll onFalse (Stmt.addAssignedAll onTrue out)
  | .whileLoop _ _ body, out => Stmt.addAssignedAll body out

/-- The names that the statements of a list assign, added to a set. -/
def Stmt.addAssignedAll : List Stmt → Names → Names
  | [], out => out
  | st :: rest, out => Stmt.addAssignedAll rest (st.addAssigned out)

end

/-- The names that statements assign. -/
def assignedBy (body : List Stmt) : Names := Stmt.addAssignedAll body []

end Source

end Interpose
