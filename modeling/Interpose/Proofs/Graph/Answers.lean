import Mathlib.Data.List.ReduceOption
import Interpose.Proofs.Graph.InPlace
import Interpose.Proofs.Graph.References

/-!
# What the answers make of a graph

The function that is asked about the operands of a graph sees its references, one after another, and
nothing else: no variable, and nothing that was put in the place of a reference. If none of its
answers is a variable, each of them takes the place of the reference that it was given for, and what
remains of the graph without its references is what remained before. This is shown for the
computation that replaces as it asks, part by part. A part is taken with the references in it, and
parts that follow each other are asked about one after the other.
-/

set_option autoImplicit false

namespace Interpose

open Interpose.Graph

variable {τ β β' : Type} (f : Operand → StateM τ (Option Operand))

/-! ## Answers -/

/-- References with the answers in their places. -/
def answered (refs : List Operand) (answers : List (Option Operand)) : List Operand :=
  List.zipWith (fun op new => new.getD op) refs answers

theorem run_mapM_append (refs refs' : List Operand) (t : τ) : ((refs ++ refs').mapM f).run t
    = (((refs.mapM f).run t).1 ++ ((refs'.mapM f).run ((refs.mapM f).run t).2).1,
      ((refs'.mapM f).run ((refs.mapM f).run t).2).2) := by
  rw [List.mapM_append]
  rfl

theorem length_answers (refs : List Operand) (t : τ) :
    ((refs.mapM f).run t).1.length = refs.length := by
  induction refs generalizing t with
  | nil => rfl
  | cons op refs ih =>
    rw [List.mapM_cons]
    show ((refs.mapM f).run ((f op).run t).2).1.length + 1 = refs.length + 1
    rw [ih]

/-! ## Parts -/

/-- The computation asks about these references. It collects the answers that are one, and if none
of them is a variable, what it makes is related to the references with the answers in their
places. -/
def Replaces (refs : List Operand) (replace : StateT (List Operand) (StateM τ) β)
    (R : List Operand → β → Prop) : Prop :=
  ∀ t made, ∃ x, (replace.run made).run t
      = ((x, made ++ ((refs.mapM f).run t).1.reduceOption), ((refs.mapM f).run t).2)
    ∧ ((∀ new, some new ∈ ((refs.mapM f).run t).1 → new.isVar = false) →
      R (answered refs ((refs.mapM f).run t).1) x)

namespace Replaces

variable {f} {refs refs' : List Operand} {replace : StateT (List Operand) (StateM τ) β}
  {R : List Operand → β → Prop}

protected theorem pure {x : β} (h : R [] x) : Replaces f [] (pure x) R := by
  refine fun t made => ⟨x, ?_, fun _ => h⟩
  show ((x, made), t) = ((x, made ++ []), t)
  rw [List.append_nil]

/-- One part after another. -/
protected theorem bind {replace' : β → StateT (List Operand) (StateM τ) β'}
    {R' : β → List Operand → β' → Prop} {R'' : List Operand → β' → Prop}
    (h : Replaces f refs replace R) (h' : ∀ x, Replaces f refs' (replace' x) (R' x))
    (hboth : ∀ new new' x x', R new x → R' x new' x' → R'' (new ++ new') x') :
    Replaces f (refs ++ refs') (replace >>= replace') R'' := by
  intro t made
  obtain ⟨x, hrun, hR⟩ := h t made
  obtain ⟨x', hrun', hR'⟩ :=
    h' x ((refs.mapM f).run t).2 (made ++ ((refs.mapM f).run t).1.reduceOption)
  refine ⟨x', ?_, fun hvars => ?_⟩
  · rw [StateT.run_bind, StateT.run_bind, hrun, run_mapM_append, List.reduceOption_append,
      ← List.append_assoc]
    exact hrun'
  · rw [run_mapM_append] at hvars ⊢
    have happend : answered (refs ++ refs')
          (((refs.mapM f).run t).1 ++ ((refs'.mapM f).run ((refs.mapM f).run t).2).1)
        = answered refs ((refs.mapM f).run t).1
          ++ answered refs' ((refs'.mapM f).run ((refs.mapM f).run t).2).1 :=
      List.zipWith_append (length_answers f refs t).symm
    rw [happend]
    exact hboth _ _ _ _ (hR fun new hnew => hvars new (List.mem_append_left _ hnew))
      (hR' fun new hnew => hvars new (List.mem_append_right _ hnew))

/-- The part is put together differently. -/
protected theorem map (F : β → β') {R' : List Operand → β' → Prop} (h : Replaces f refs replace R)
    (hmap : ∀ new x, R new x → R' new (F x)) :
    Replaces f refs (replace >>= fun x => pure (F x)) R' := by
  intro t made
  obtain ⟨x, hrun, hR⟩ := h t made
  refine ⟨F x, ?_, fun hvars => hmap _ _ (hR hvars)⟩
  rw [StateT.run_bind, StateT.run_bind, hrun]
  rfl

/-- Statements, branches or blocks, one after another. -/
theorem parts {α : Type} (operands : α → List Operand) (blank : α → α)
    (replace : α → StateT (List Operand) (StateM τ) α)
    (h : ∀ x, Replaces f (Operand.references (operands x)) (replace x) fun new x' =>
      Operand.references (operands x') = new ∧ blank x' = blank x) (xs : List α) :
    Replaces f (Operand.references (xs.flatMap operands)) (xs.mapM replace) fun new xs' =>
      Operand.references (xs'.flatMap operands) = new ∧ xs'.map blank = xs.map blank := by
  induction xs with
  | nil => exact .pure ⟨rfl, rfl⟩
  | cons x xs ih =>
    rw [List.mapM_cons, List.flatMap_cons, Operand.references_append]
    have hmore : ∀ x', Replaces f (Operand.references (xs.flatMap operands))
        (xs.mapM replace >>= fun xs' => pure (x' :: xs')) fun new l => ∃ xs', l = x' :: xs'
          ∧ Operand.references (xs'.flatMap operands) = new
          ∧ xs'.map blank = xs.map blank := fun x' =>
      ih.map _ fun new xs' hxs' => ⟨xs', rfl, hxs'⟩
    refine (h x).bind hmore ?_
    rintro _ _ x' _ ⟨rfl, hx⟩ ⟨xs', rfl, rfl, hxs⟩
    refine ⟨?_, ?_⟩
    · rw [List.flatMap_cons, Operand.references_append]
    · rw [List.map_cons, List.map_cons, hx, hxs]

variable (f)

theorem operand (op : Operand) :
    Replaces f (Operand.references [op]) (replaceOperand f op) fun new op' =>
    Operand.references [op'] = new ∧ op'.blanked = op.blanked := by
  by_cases hop : op.isVar = true
  · obtain ⟨v, hv⟩ := Option.isSome_iff_exists.1 hop
    obtain rfl := Operand.eq_var hv
    exact .pure ⟨rfl, rfl⟩
  · have hop' : op.isVar = false := by simpa using hop
    have hrefs : ∀ {op : Operand}, op.isVar = false → Operand.references [op] = [op] := by
      intro op hop
      rw [Operand.references, List.filter_cons_of_pos (by simp [hop]), List.filter_nil]
    have hblanked : ∀ {op : Operand}, op.isVar = false → op.blanked = .const .nothing := by
      intro op hop
      cases op with
      | var v => cases hop
      | const _ | global _ => rfl
    -- the reference is the one question, and it stays a reference unless the answer is a variable
    rw [hrefs hop']
    intro t made
    have hone : ([op].mapM f).run t = ([((f op).run t).1], ((f op).run t).2) := by
      rw [List.mapM_cons, List.mapM_nil]
      rfl
    rw [hone]
    refine ⟨((f op).run t).1.getD op, ?_, fun hvars => ?_⟩
    · rw [Replacement.run_replaceOperand f hop']
      cases ((f op).run t).1 <;> rfl
    · have hnew : (((f op).run t).1.getD op).isVar = false := by
        rcases hanswer : ((f op).run t).1 with _ | new
        · exact hop'
        · exact hvars new (by rw [hanswer]; exact List.mem_singleton_self _)
      exact ⟨hrefs hnew, (hblanked hnew).trans (hblanked hop').symm⟩

theorem operands (ops : List Operand) :
    Replaces f (Operand.references ops) (ops.mapM (replaceOperand f))
    fun new ops' => Operand.references ops' = new
      ∧ ops'.map Operand.blanked = ops.map Operand.blanked := by
  have hparts := parts (fun op => [op]) _ _ (operand f) ops
  simpa using hparts

theorem operation (e : Operation) :
    Replaces f (Operand.references e.operands) (e.mapM (replaceOperand f))
    fun new e' => Operand.references e'.operands = new
      ∧ e'.map Operand.blanked = e.map Operand.blanked := by
  cases e with
  | call callee args =>
    -- the callee is asked about first, so a call is replaced like the list of both
    have hmapM : (Operation.call callee args).mapM (replaceOperand f)
        = (callee :: args).mapM (replaceOperand f)
          >>= fun ops => pure (.call (ops.headD callee) ops.tail) := by
      rw [List.mapM_cons]
      simp [Operation.mapM]
    rw [hmapM]
    refine (operands f (callee :: args)).map _ fun new ops' h => ?_
    obtain ⟨hrefs, hrest⟩ := h
    obtain ⟨callee', args', rfl, hcallee, hargs⟩ := List.map_eq_cons_iff.1 hrest
    refine ⟨hrefs, ?_⟩
    rw [Operation.map, Operation.map, List.headD_cons, List.tail_cons, hcallee, hargs]
  | operand op =>
    refine (operand f op).map Operation.operand fun new op' h => ⟨h.1, ?_⟩
    rw [Operation.map, Operation.map, h.2]

theorem block (b : Block) :
    Replaces f (Operand.references b.operands) (b.mapOperandsM (replaceOperand f))
    fun new b' => Operand.references b'.operands = new ∧ b'.blanked = b.blanked := by
  have hbody := parts (fun e : Variable × Statement => e.2.operation.operands)
    (fun e => (e.1, e.2.map Operand.blanked))
    (fun e => do return (e.1, { e.2 with operation := ← e.2.operation.mapM (replaceOperand f) }))
    (fun e => (operation f e.2.operation).map _ fun new e' h => ⟨h.1, by
      simp only [Statement.map, h.2]⟩) b.body
  have hbranches := parts Branch.args Branch.blanked
    (fun br => do return { br with args := ← br.args.mapM (replaceOperand f) })
    (fun br => (operands f br.args).map _ fun new args h => ⟨h.1, by
      simp only [Branch.blanked, h.2]⟩) b.branches
  rw [Block.operands, Operand.references_append]
  have hmore : ∀ body, Replaces f (Operand.references (b.branches.flatMap Branch.args))
      (b.branches.mapM (fun br => do return { br with args := ← br.args.mapM (replaceOperand f) })
        >>= fun branches => pure { b with body, branches })
      fun new b' => ∃ branches, b' = { b with body, branches }
          ∧ Operand.references (branches.flatMap Branch.args) = new
          ∧ branches.map Branch.blanked = b.branches.map Branch.blanked := fun body =>
    hbranches.map _ fun new branches h => ⟨branches, rfl, h⟩
  refine hbody.bind hmore ?_
  rintro _ _ body _ ⟨rfl, hbody⟩ ⟨branches, rfl, rfl, hbranches⟩
  refine ⟨?_, ?_⟩
  · rw [Block.operands, Operand.references_append]
  · rw [Block.blanked, Block.blanked, hbody, hbranches]

end Replaces

/-! ## The questions -/

/-- The function that also notes what it was asked. -/
def noting (op : Operand) : StateM (τ × List Operand) (Option Operand) := do
  let (t, asked) ← get
  let (new, t') := (f op).run t
  set (t', asked ++ [op])
  return new

/-- It gives the same answers, and notes all questions. -/
theorem run_noting (refs asked : List Operand) (t : τ) : (refs.mapM (noting f)).run (t, asked)
    = (((refs.mapM f).run t).1, ((refs.mapM f).run t).2, asked ++ refs) := by
  induction refs generalizing t asked with
  | nil =>
    rw [List.append_nil]
    rfl
  | cons op refs ih =>
    have hrest := ih (asked ++ [op]) ((f op).run t).2
    rw [List.mapM_cons, List.mapM_cons, List.append_cons]
    show (((f op).run t).1 :: ((refs.mapM (noting f)).run (((f op).run t).2, asked ++ [op])).1,
      ((refs.mapM (noting f)).run (((f op).run t).2, asked ++ [op])).2) = _
    rw [hrest]
    rfl

/-- **Replacing operands is a map over the references.** The function is asked about every reference
of the graph once, in order, and about nothing else, whether or not the call succeeds, and what it
knows at last is left after these questions. If one of its answers is a variable, the call fails and
leaves the graph. Otherwise it succeeds with the number of references that were answered, and makes
the one graph that has the answers in the places of their references and is the same in everything
else. The check of it says what it said before, but for the references of a branch that it complains
about. -/
theorem replaceOperands_maps_references (g : Graph) (t : τ) {answers : List (Option Operand)}
    {t' : τ} (hanswers : (g.references.mapM f).run t = (answers, t')) :
    ((InPlace.replaceOperands (noting f) (t, [])).run g).1.2 = (t', g.references)
    ∧ (∀ new, some new ∈ answers → new.isVar = true →
      (InPlace.replaceOperands f t).run g = ((.error (.structural .variableReplacement), t'), g))
    ∧ ((∀ new, some new ∈ answers → new.isVar = false) → ∃ g',
      (InPlace.replaceOperands f t).run g = ((.ok (answers.countP Option.isSome), t'), g')
      ∧ g'.references = answered g.references answers ∧ g'.blanked = g.blanked
      ∧ (∀ g'', g''.references = answered g.references answers → g''.blanked = g.blanked → g'' = g')
      ∧ g'.verify.mapError GraphError.blanked = g.verify.mapError GraphError.blanked) := by
  obtain ⟨blocks, hrun, hblocks⟩ :=
    Replaces.parts Block.operands Block.blanked _ (Replaces.block f) g.blocks.toList t []
  replace hrun := Graph.run_replaceOperandsM hrun
  rw [← Graph.references, hanswers] at hblocks hrun
  rw [List.nil_append] at hrun
  refine ⟨?_, fun new hnew hvar => ?_, fun hvars => ?_⟩
  · obtain ⟨_, hnoted, -⟩ :=
      Replaces.parts Block.operands Block.blanked _ (Replaces.block (noting f)) g.blocks.toList
        (t, []) []
    rw [InPlace.run_replaceOperands _ (Graph.run_replaceOperandsM hnoted), ← Graph.references,
      run_noting, hanswers]
    rfl
  · have hany : answers.reduceOption.any Operand.isVar = true :=
      List.any_eq_true.2 ⟨new, List.reduceOption_mem_iff.2 hnew, hvar⟩
    rw [if_pos hany] at hrun
    rw [InPlace.run_replaceOperands f hrun, InPlace.settled_error]
  · have hnone : ¬answers.reduceOption.any Operand.isVar = true := by
      intro hany
      obtain ⟨new, hnew, hvar⟩ := List.any_eq_true.1 hany
      rw [hvars new (List.reduceOption_mem_iff.1 hnew)] at hvar
      cases hvar
    rw [if_neg hnone] at hrun
    obtain ⟨hrefs, hrest⟩ := hblocks hvars
    have hcount : answers.reduceOption.length = answers.countP Option.isSome := by
      rw [List.reduceOption_length_eq, List.countP_eq_length_filter]
    have hblanked : ({ g with blocks := blocks.toArray } : Graph).blanked = g.blanked := by
      have harray : blocks.toArray.map Block.blanked = g.blocks.map Block.blanked := by
        rw [← Array.toList_inj, Array.toList_map, Array.toList_map, hrest]
      rw [Graph.blanked, Graph.blanked, harray]
    refine ⟨{ g with blocks := blocks.toArray }, ?_, hrefs, hblanked,
      fun g'' hrefs'' hrest'' => ?_, ?_⟩
    · rw [InPlace.run_replaceOperands f hrun, InPlace.settled_ok, hcount]
    · exact Graph.eq_of_references (hrest''.trans hblanked.symm) (hrefs''.trans hrefs.symm)
    · rw [← Graph.verify_blanked, ← Graph.verify_blanked, hblanked]

/-- A call with a variable between two constants, and a constant that is returned. -/
def Graph.mixed : Graph where
  sites := #[.param .entry 0, .statement .entry 0]
  blocks := #[⟨[(⟨0⟩, .any)],
    [(⟨1⟩, .plain (.call (.global "f") [.const (.int 5), .var ⟨0⟩, .const (.int 6)]))],
    [.leave (.const (.int 7))]⟩]
  lines := []
  provenance := none

/-- Gives one answer after another. -/
def reciting : Operand → StateM (List (Option Operand)) (Option Operand) :=
  fun _ rest => (rest.headD none, rest.tail)

/-- The callee, the second constant of the call and the returned one are replaced, and the first one
is not. -/
theorem replaceOperands_maps_references_mixed :
    (Graph.mixed.references.mapM reciting).run
      [some (.global "g"), none, some (.const .nothing), some (.global "h")]
      = ([some (.global "g"), none, some (.const .nothing), some (.global "h")], [])
    ∧ ∃ g', (InPlace.replaceOperands reciting
        [some (.global "g"), none, some (.const .nothing), some (.global "h")]).run .mixed
        = ((.ok 3, []), g')
      ∧ g'.references = [.global "g", .const (.int 5), .const .nothing, .global "h"]
      ∧ g'.blanked = Graph.mixed.blanked := by
  have hanswers : (Graph.mixed.references.mapM reciting).run
      [some (.global "g"), none, some (.const .nothing), some (.global "h")]
      = ([some (.global "g"), none, some (.const .nothing), some (.global "h")], []) := rfl
  obtain ⟨-, -, hreplaced⟩ := replaceOperands_maps_references reciting .mixed _ hanswers
  obtain ⟨g', hrun, hrefs, hrest, -⟩ := hreplaced (by simp [Operand.isVar, Operand.var?])
  exact ⟨hanswers, g', hrun, hrefs, hrest⟩

end Interpose
