import Interpose.Proofs.Lowering.Structured

/-!
# Functions without loops

Only loops lead back. So where a function has none, all branches of its graph lead on, to blocks
with higher numbers.
-/

set_option autoImplicit false

namespace Interpose

namespace Source

mutual

/-- The statement is no loop, and there is none inside it. -/
def Stmt.loopless : Stmt → Bool
  | .assign _ _ _ | .giveBack _ _ | .expr _ _ => true
  | .ifThen _ _ onTrue => Stmt.looplessAll onTrue
  | .ifElse _ _ onTrue onFalse => Stmt.looplessAll onTrue && Stmt.looplessAll onFalse
  | .whileLoop _ _ _ => false

def Stmt.looplessAll : List Stmt → Bool
  | [] => true
  | st :: rest => st.loopless && Stmt.looplessAll rest

end

/-- There is no loop in the function, also where nothing can get to it. -/
def Function.loopless (f : Function) : Bool := Stmt.looplessAll f.body

mutual

theorem Stmt.loops_of_loopless : ∀ (st : Stmt) (s : Spot), st.loopless = true → st.loops s = []
  | .assign _ _ _, _, _ | .giveBack _ _, _, _ | .expr _ _, _, _ => rfl
  | .ifThen _ _ onTrue, _, h => Stmt.loopsAll_of_loopless onTrue _ h
  | .ifElse _ _ onTrue onFalse, _, h => by
    obtain ⟨htrue, hfalse⟩ := Bool.and_eq_true_iff.1 h
    rw [Stmt.loops, Stmt.loopsAll_of_loopless onTrue _ htrue,
      Stmt.loopsAll_of_loopless onFalse _ hfalse]
    rfl

theorem Stmt.loopsAll_of_loopless : ∀ (body : List Stmt) (s : Spot), Stmt.looplessAll body = true →
    Stmt.loopsAll body s = []
  | [], _, _ => rfl
  | st :: rest, _, h => by
    obtain ⟨hst, hrest⟩ := Bool.and_eq_true_iff.1 h
    rw [Stmt.loopsAll, Stmt.loops_of_loopless st _ hst,
      Stmt.loopsAll_of_loopless rest _ hrest, ite_self]
    rfl

end

end Source

/-- All branches lead to a block with a higher number. -/
def Graph.Forward (g : Graph) : Prop := ∀ b t, g.Follows b t → b.index < t.index

/-- **All branches of a function without loops lead on.** -/
theorem Chart.Lowers.forward {d : Source.Function} {file : String} {c : Chart} (h : Lowers d file c)
    (hloopless : d.loopless = true) : c.graph.Forward := by
  obtain ⟨edges, s', hdrawn, -, hspans⟩ := h.drawn
  intro b t hfollows
  refine (hdrawn.follows hspans hfollows).resolve_right ?_
  rintro ⟨l, hl, -⟩
  have hnone : d.loops = [] := Source.Stmt.loopsAll_of_loopless d.body .start hloopless
  rw [hnone] at hl
  cases hl

end Interpose
