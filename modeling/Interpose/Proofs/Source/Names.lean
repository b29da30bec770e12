import Interpose.Lowering.Function

/-!
# Names at a place of a program

What the text of a program says about a place in it, whatever a run does: whether every way to its
end returns, which names are *possibly bound* after it, and which names it takes from outside.

A name is possibly bound after an assignment to it. Where two ways meet, it is if it is on one of
them, and a way that has returned does not count. A loop may come back, so all names that its body
assigns are possibly bound in the loop and after it. A name that is read where it is not possibly
bound is taken from outside; what stands behind a return is not read.
-/

set_option autoImplicit false

namespace Interpose.Source

/-! ## Ways that return -/

mutual

/-- Every way through the statement returns. -/
def Stmt.returns : Stmt → Bool
  | .giveBack _ _ => true
  | .ifElse _ _ onTrue onFalse => Stmt.returnsAll onTrue && Stmt.returnsAll onFalse
  | .assign _ _ _ | .ifThen _ _ _ | .whileLoop _ _ _ | .expr _ _ => false

def Stmt.returnsAll : List Stmt → Bool
  | [] => false
  | st :: rest => st.returns || Stmt.returnsAll rest

end

/-! ## Names that are possibly bound -/

mutual

/-- The names that are possibly bound after a statement, if those of `bound` are before it. -/
def Stmt.boundAfter (bound : Names) : Stmt → Names
  | .assign _ n _ => Names.insert n bound
  | .giveBack _ _ | .expr _ _ => bound
  | .ifThen _ _ onTrue =>
    Names.union bound (if Stmt.returnsAll onTrue then [] else Stmt.boundAfterAll bound onTrue)
  | .ifElse _ _ onTrue onFalse =>
    Names.union (if Stmt.returnsAll onTrue then [] else Stmt.boundAfterAll bound onTrue)
      (if Stmt.returnsAll onFalse then [] else Stmt.boundAfterAll bound onFalse)
  | .whileLoop _ _ body => Names.union bound (assignedBy body)

def Stmt.boundAfterAll (bound : Names) : List Stmt → Names
  | [] => bound
  | st :: rest => Stmt.boundAfterAll (st.boundAfter bound) rest

end

/-! ## Names from outside -/

/-- The names of an expression that are not possibly bound. -/
def Expr.globals (bound : Names) (e : Expr) : Names := e.reads.filter fun n => !bound.contains n

mutual

/-- The names that a statement takes from outside, if those of `bound` are possibly bound before
it. -/
def Stmt.globals (bound : Names) : Stmt → Names
  | .assign _ _ e | .giveBack _ e | .expr _ e => e.globals bound
  | .ifThen _ cond onTrue => Names.union (cond.globals bound) (Stmt.globalsAll bound onTrue)
  | .ifElse _ cond onTrue onFalse => Names.union (cond.globals bound)
      (Names.union (Stmt.globalsAll bound onTrue) (Stmt.globalsAll bound onFalse))
  | .whileLoop _ cond body => Names.union (cond.globals (Names.union bound (assignedBy body)))
      (Stmt.globalsAll (Names.union bound (assignedBy body)) body)

def Stmt.globalsAll (bound : Names) : List Stmt → Names
  | [] => []
  | st :: rest => Names.union (st.globals bound)
      (if st.returns then [] else Stmt.globalsAll (st.boundAfter bound) rest)

end

/-! ## What is read

The sets of names are collected in an accumulator, which only ever grows. -/

variable {n : String}

mutual

theorem Expr.mem_addReads : ∀ (e : Expr) (out : Names), n ∈ e.addReads out ↔ n ∈ e.reads ∨ n ∈ out
  | .name m, out => by simp [Expr.reads, Expr.addReads]
  | .lit v, out => by simp [Expr.reads, Expr.addReads]
  | .call callee args, out => by
    rw [Expr.reads, Expr.addReads, Expr.addReads, Expr.mem_addReadsAll args (callee.addReads out),
      Expr.mem_addReadsAll args (callee.addReads []), Expr.mem_addReads callee out, or_assoc]
    rfl
  | .choose cond onTrue onFalse, out => by
    rw [Expr.reads, Expr.addReads, Expr.addReads,
      Expr.mem_addReads onFalse (onTrue.addReads (cond.addReads out)),
      Expr.mem_addReads onFalse (onTrue.addReads (cond.addReads [])),
      Expr.mem_addReads onTrue (cond.addReads out),
      Expr.mem_addReads onTrue (cond.addReads []), Expr.mem_addReads cond out, or_assoc, or_assoc]
    rfl

theorem Expr.mem_addReadsAll : ∀ (es : List Expr) (out : Names),
    n ∈ Expr.addReadsAll es out ↔ n ∈ Expr.addReadsAll es [] ∨ n ∈ out
  | [], out => by simp [Expr.addReadsAll]
  | e :: es, out => by
    rw [Expr.addReadsAll, Expr.addReadsAll, Expr.mem_addReadsAll es (e.addReads out),
      Expr.mem_addReadsAll es (e.addReads []), Expr.mem_addReads e out, or_assoc]
    rfl

end

theorem Expr.mem_reads_call {callee : Expr} {args : List Expr} :
    n ∈ (Expr.call callee args).reads ↔ n ∈ callee.reads ∨ n ∈ Expr.addReadsAll args [] := by
  rw [Expr.reads, Expr.addReads, Expr.mem_addReadsAll]
  exact or_comm

theorem Expr.mem_addReadsAll_cons {e : Expr} {es : List Expr} :
    n ∈ Expr.addReadsAll (e :: es) [] ↔ n ∈ e.reads ∨ n ∈ Expr.addReadsAll es [] := by
  rw [Expr.addReadsAll, Expr.mem_addReadsAll]
  exact or_comm

theorem Expr.mem_reads_choose {cond onTrue onFalse : Expr} :
    n ∈ (Expr.choose cond onTrue onFalse).reads
      ↔ n ∈ cond.reads ∨ n ∈ onTrue.reads ∨ n ∈ onFalse.reads := by
  rw [Expr.reads, Expr.addReads, Expr.mem_addReads, Expr.mem_addReads onTrue, or_rotate, or_rotate]
  exact or_congr_right or_comm

mutual

theorem Stmt.mem_addReads : ∀ (st : Stmt) (out : Names), n ∈ st.addReads out
    ↔ n ∈ st.addReads [] ∨ n ∈ out
  | .assign _ _ e, out | .giveBack _ e, out | .expr _ e, out => by
    rw [Stmt.addReads, Stmt.addReads, Expr.mem_addReads, Expr.mem_addReads e []]
    simp
  | .ifThen _ cond onTrue, out => by
    rw [Stmt.addReads, Stmt.addReads, Stmt.mem_addReadsAll onTrue,
      Stmt.mem_addReadsAll onTrue (cond.addReads []), Expr.mem_addReads, Expr.mem_addReads cond []]
    simp [or_assoc]
  | .ifElse _ cond onTrue onFalse, out => by
    rw [Stmt.addReads, Stmt.addReads, Stmt.mem_addReadsAll onFalse,
      Stmt.mem_addReadsAll onFalse (Stmt.addReadsAll onTrue (cond.addReads [])),
      Stmt.mem_addReadsAll onTrue, Stmt.mem_addReadsAll onTrue (cond.addReads []),
      Expr.mem_addReads, Expr.mem_addReads cond []]
    simp [or_assoc]
  | .whileLoop _ cond body, out => by
    rw [Stmt.addReads, Stmt.addReads, Stmt.mem_addReadsAll body,
      Stmt.mem_addReadsAll body (cond.addReads []), Expr.mem_addReads, Expr.mem_addReads cond []]
    simp [or_assoc]

theorem Stmt.mem_addReadsAll : ∀ (body : List Stmt) (out : Names),
    n ∈ Stmt.addReadsAll body out ↔ n ∈ readsOf body ∨ n ∈ out
  | [], out => by simp [readsOf, Stmt.addReadsAll]
  | st :: rest, out => by
    rw [readsOf, Stmt.addReadsAll, Stmt.addReadsAll, Stmt.mem_addReadsAll rest,
      Stmt.mem_addReadsAll rest (st.addReads []), Stmt.mem_addReads st, Stmt.mem_addReads st []]
    simp [or_assoc]

end

theorem mem_readsOf_cons {st : Stmt} {rest : List Stmt} :
    n ∈ readsOf (st :: rest) ↔ n ∈ st.addReads [] ∨ n ∈ readsOf rest := by
  rw [readsOf, Stmt.addReadsAll, Stmt.mem_addReadsAll]
  exact or_comm

section Live

/-! What is read by a statement or behind it, by its parts. `live` is read behind it. -/

variable {line : Nat} {cond : Expr} {body onTrue onFalse : List Stmt} {live : Names}

theorem Stmt.mem_live_ifThen : n ∈ Names.union (Stmt.addReads (.ifThen line cond onTrue) []) live
    ↔ n ∈ cond.reads ∨ n ∈ Names.union (readsOf onTrue) live := by
  rw [Names.mem_union, Names.mem_union, Stmt.addReads, Stmt.mem_addReadsAll, or_assoc, or_left_comm]
  rfl

theorem Stmt.mem_live_ifElse :
    n ∈ Names.union (Stmt.addReads (.ifElse line cond onTrue onFalse) []) live
      ↔ n ∈ cond.reads ∨ n ∈ Names.union (readsOf onTrue) live
        ∨ n ∈ Names.union (readsOf onFalse) live := by
  rw [Names.mem_union, Names.mem_union, Names.mem_union, Stmt.addReads, Stmt.mem_addReadsAll,
    Stmt.mem_addReadsAll, ← or_or_distrib_right, ← or_assoc, or_comm (a := n ∈ readsOf onTrue),
    or_left_comm]
  exact or_assoc

theorem Stmt.mem_live_whileLoop :
    n ∈ Names.union (Stmt.addReads (.whileLoop line cond body) []) live
      ↔ n ∈ Names.union (Names.union cond.reads (readsOf body)) live := by
  rw [Names.mem_union, Names.mem_union, Names.mem_union, Stmt.addReads, Stmt.mem_addReadsAll,
    Expr.reads, or_comm (a := n ∈ readsOf body)]

theorem mem_live_cons {st : Stmt} {rest : List Stmt} : n ∈ Names.union (readsOf (st :: rest)) live
    ↔ n ∈ Names.union (st.addReads []) (Names.union (readsOf rest) live) := by
  rw [Names.mem_union, Names.mem_union, Names.mem_union, mem_readsOf_cons, or_assoc]

end Live

/-! ## What is assigned -/

mutual

theorem Stmt.mem_addAssigned : ∀ (st : Stmt) (out : Names),
    n ∈ st.addAssigned out ↔ n ∈ st.addAssigned [] ∨ n ∈ out
  | .assign _ m _, out => by simp [Stmt.addAssigned]
  | .giveBack _ _, out | .expr _ _, out => by simp [Stmt.addAssigned]
  | .ifThen _ _ onTrue, out => by
    rw [Stmt.addAssigned, Stmt.addAssigned]
    exact Stmt.mem_addAssignedAll onTrue out
  | .ifElse _ _ onTrue onFalse, out => by
    rw [Stmt.addAssigned, Stmt.addAssigned, Stmt.mem_addAssignedAll onFalse,
      Stmt.mem_addAssignedAll onFalse (Stmt.addAssignedAll onTrue []),
      Stmt.mem_addAssignedAll onTrue]
    rw [or_assoc]
    rfl
  | .whileLoop _ _ body, out => by
    rw [Stmt.addAssigned, Stmt.addAssigned]
    exact Stmt.mem_addAssignedAll body out

theorem Stmt.mem_addAssignedAll : ∀ (body : List Stmt) (out : Names),
    n ∈ Stmt.addAssignedAll body out ↔ n ∈ assignedBy body ∨ n ∈ out
  | [], out => by simp [assignedBy, Stmt.addAssignedAll]
  | st :: rest, out => by
    rw [assignedBy, Stmt.addAssignedAll, Stmt.addAssignedAll, Stmt.mem_addAssignedAll rest,
      Stmt.mem_addAssignedAll rest (st.addAssigned []), Stmt.mem_addAssigned st]
    rw [or_assoc]

end

theorem mem_assignedBy_cons {st : Stmt} {rest : List Stmt} :
    n ∈ assignedBy (st :: rest) ↔ n ∈ st.addAssigned [] ∨ n ∈ assignedBy rest := by
  rw [assignedBy, Stmt.addAssignedAll, Stmt.mem_addAssignedAll]
  exact or_comm

/-- A loop carries the names that its body assigns and that are read in it or after it. -/
theorem mem_carriedNames {body : List Stmt} {live : Names} :
    n ∈ carriedNames body live ↔ n ∈ live ∧ n ∈ assignedBy body := by
  rw [carriedNames, List.mem_filter, List.contains_iff_mem]
  exact and_comm

/-! ## What comes from outside -/

/-- A name that is read and not possibly bound is taken from outside. -/
theorem Expr.mem_globals {bound : Names} {e : Expr} :
    n ∈ e.globals bound ↔ n ∈ e.reads ∧ n ∉ bound := by
  simp [Expr.globals]

end Interpose.Source
