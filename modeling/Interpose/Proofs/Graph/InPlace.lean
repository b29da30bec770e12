import Interpose.Proofs.Graph.Editing
import Interpose.Proofs.Graph.Replacing

/-!
# Edits in place and all at once

An edit made in place comes to what `Graph.Edit` says it makes, and when it is refused, the graph is
the one that it was. Every edit is gone through from its first check to its last change. Only one
argument is used for the checks: a check that fails has had no change before it. What is left is
that the changes, taken one after another, make the graph that is written down as a whole.
-/

set_option autoImplicit false

namespace Interpose

open Interpose.Graph

namespace InPlace

variable {g : Graph}

/-! ## Statements and parameters -/

theorem modifyBlock_congr (g : Graph) (b : BlockId) {f f' : Block → Block}
    (h : ∀ block, g.block? b = some block → f block = f' block) :
    g.modifyBlock b f = g.modifyBlock b f' := by
  have hblocks : g.blocks.modify b.index f = g.blocks.modify b.index f' := by
    refine Array.ext_getElem? fun i => ?_
    rw [Array.getElem?_modify, Array.getElem?_modify]
    split
    · next hi =>
      subst hi
      exact Option.map_congr h
    · rfl
  rw [modifyBlock, hblocks, modifyBlock]

/-- A variable that has its site already can be passed over when the ones behind it are numbered. -/
theorem number_insertIdx {γ : Type} (site : Nat → Site) (position : Nat)
    (entries : List (Variable × γ)) (c : γ) :
    number site position (((entries.insertIdx position (g.fresh, c)).drop position).map Prod.fst)
        (g.sites.push (site position))
      = number site (position + 1)
        (((entries.insertIdx position (g.fresh, c)).drop (position + 1)).map Prod.fst)
        (g.sites.push (site position)) := by
  by_cases h : position < (entries.insertIdx position (g.fresh, c)).length
  · rw [List.drop_eq_getElem_cons h, List.getElem_insertIdx_self]
    have hsame : (g.sites.push (site position)).setIfInBounds g.fresh.index (site position)
        = g.sites.push (site position) := by
      refine Array.ext_getElem? fun i => ?_
      simp only [Array.getElem?_setIfInBounds, Array.getElem?_push, fresh, varCount,
        Array.size_push]
      split <;> simp_all
    rw [List.map_cons, number, hsame]
  · rw [List.drop_eq_nil_of_le (by omega), List.drop_eq_nil_of_le (by omega)]
    rfl

/-- What the body of a changed block holds from a position on, if there is nothing there in an empty
one. -/
theorem bodyVars_modifyBlock (b : BlockId)
    (f : List (Variable × Statement) → List (Variable × Statement)) (n : Nat)
    (hempty : (f []).drop n = []) :
    (((g.modifyBlock b fun block => { block with body := f block.body }).block? b).getD
        .empty).bodyVars.drop n
      = ((f ((g.block? b).getD .empty).body).drop n).map Prod.fst := by
  rw [block?_modifyBlock, if_pos rfl]
  rcases g.block? b with _ | block
  · simp [Block.bodyVars, Block.empty, hempty]
  · simp [Block.bodyVars]

theorem modifyBlock_body (b : BlockId)
    (f : List (Variable × Statement) → List (Variable × Statement)) :
    (g.modifyBlock b fun block => { block with body := f block.body })
      = g.modifyBlock b ({ · with body := f ((g.block? b).getD .empty).body }) :=
  modifyBlock_congr g b fun block hblock => by rw [hblock, Option.getD_some]

theorem on_insertAt (b : BlockId) (position : Nat) (s : Statement) :
    (insertAt b position s).on g = settled g (g.insertAt b position s) := by
  refine on_ask_bind fun _ _ => ?_
  simp only [on_bind, on_allocate, on_onBlock, on_get, on_placeFrom, on_pure]
  show _ = (Except.ok g.fresh, g.inserted b position s)
  rw [inserted, number_insertIdx, ← modifyBlock_body b (·.insertIdx position (g.fresh, s)),
    ← bodyVars_modifyBlock b (·.insertIdx position (g.fresh, s)) _ (by cases position <;> simp)]
  rfl

theorem on_delete (v : Variable) : (delete v).on g = settled g (g.delete v) := by
  refine on_ask_bind fun ⟨b, i⟩ _ => ?_
  simp only [on_bind, on_get]
  split
  · rfl
  · simp only [on_bind, on_get, on_onBlock, on_placeFrom, on_place, on_pure]
    show _ = (Except.ok (g.statementAt b i), g.erased b i v)
    rw [erased, ← modifyBlock_body b (·.eraseIdx i),
      ← bodyVars_modifyBlock b (·.eraseIdx i) i (by simp)]
    rfl

theorem on_set (v : Variable) (s : Statement) : (set v s).on g = settled g (g.set v s) := by
  refine on_ask_bind fun ⟨b, i⟩ _ => ?_
  exact on_ask_bind fun _ _ => rfl

theorem on_addParamAt (b : BlockId) (position : Nat) (ty : Ty) (default : Operand) :
    (addParamAt b position ty default).on g = settled g (g.addParamAt b position ty default) := by
  refine on_ask_bind fun block hb => ?_
  refine on_ask_bind fun _ _ => ?_
  dsimp only
  split
  · rfl
  · have hblock : g.block? b = some block := block_eq_ok.1 hb
    -- what is placed again is read off the block after the insertion
    have hvars : ((((g.modifyBlock b fun block =>
          { block with params := block.params.insertIdx position (g.fresh, ty) }).block? b).getD
          .empty).paramVars).drop (position + 1)
        = ((block.params.insertIdx position (g.fresh, ty)).drop (position + 1)).map Prod.fst := by
      rw [block?_modifyBlock, if_pos rfl, hblock]
      simp [Block.paramVars]
    have hblocks : (g.modifyBlock b fun block =>
          { block with params := block.params.insertIdx position (g.fresh, ty) })
        = g.modifyBlock b ({ · with params := block.params.insertIdx position (g.fresh, ty) }) :=
      modifyBlock_congr g b fun block' hblock' => by
        rw [Option.some.inj (hblock.symm.trans hblock')]
    simp only [on_bind, on_get, on_allocate, on_onBlock, on_placeFrom, on_modify, on_pure]
    show _ = settled g (.ok (({ g with
        sites :=
          number (.param b) position
            (((block.params.insertIdx position (g.fresh, ty)).drop position).map Prod.fst)
            (g.sites.push (.param b position))
        blocks :=
          (g.modifyBlock b
            ({ · with params := block.params.insertIdx position (g.fresh, ty) })).blocks.map
          fun block =>
            { block with
              branches := block.branches.map (·.withArgument b position default) } } : Graph),
      g.fresh))
    rw [number_insertIdx, ← hvars, ← hblocks]
    rfl

/-! ## Parameters and statements made in other ways -/

theorem on_addParamWith (b : BlockId) (ty : Ty) (default : Operand) :
    (addParamWith b ty default).on g = settled g (g.addParamWith b ty default) :=
  on_ask_bind fun _ _ => on_addParamAt ..

theorem on_pushTo (b : BlockId) (s : Statement) : (pushTo b s).on g = settled g (g.pushTo b s) :=
  on_ask_bind fun _ _ => on_insertAt ..

theorem on_push (s : Statement) : (push s).on g = settled g (g.push s) := by
  rw [push, on_bind, on_get]
  exact on_pushTo ..

theorem on_prependTo (b : BlockId) (s : Statement) :
    (prependTo b s).on g = settled g (g.prependTo b s) :=
  on_ask_bind fun _ _ => on_insertAt ..

theorem on_insertBefore (v : Variable) (s : Statement) :
    (insertBefore v s).on g = settled g (g.insertBefore v s) :=
  on_ask_bind fun _ _ => on_insertAt ..

theorem on_insertAfter (v : Variable) (s : Statement) :
    (insertAfter v s).on g = settled g (g.insertAfter v s) :=
  on_ask_bind fun _ _ => on_insertAt ..

/-! ## Operands -/

theorem on_write (found : List Replacement) (write : Replacement → Block → Block) :
    (found.forM fun r => onBlock ⟨r.block⟩ (write r)).on g
      = (.ok (), { g with blocks :=
          (found.foldl (fun blocks r => blocks.modify r.block (write r))
            g.blocks.toList).toArray }) := by
  induction found generalizing g with
  | nil => rfl
  | cons r found ih =>
    rw [on_forM_cons, on_bind, on_onBlock, List.foldl_cons, ← Array.toList_modify]
    exact ih

/-- **Two passes come to one**, and the function knows the same at last. -/
theorem run_replaceOperands {τ : Type} (f : Operand → StateM τ (Option Operand)) {t t' : τ}
    {result : Except GraphError (Graph × Nat)}
    (hrun : (g.replaceOperandsM f).run t = (result, t')) :
    (replaceOperands f t).run g = (((settled g result).1, t'), (settled g result).2) := by
  obtain ⟨blocks, more, hblocks, hperm, between, hwrite⟩ :=
    Replacement.follows_blocks f g.blocks.toList 0 t []
  obtain ⟨hbodies, hbranches⟩ := hwrite [] rfl
  rw [Graph.run_replaceOperandsM hblocks, List.nil_append] at hrun
  obtain ⟨rfl, rfl⟩ := Prod.mk.inj hrun
  have hcall : (replaceOperands f t).run g
      = ((((replaceAll ((Replacement.findInBlocks f 0 g.blocks.toList).run t).1.1
            ((Replacement.findInBlocks f 0 g.blocks.toList).run t).1.2).on g).1,
          ((Replacement.findInBlocks f 0 g.blocks.toList).run t).2),
        ((replaceAll ((Replacement.findInBlocks f 0 g.blocks.toList).run t).1.1
            ((Replacement.findInBlocks f 0 g.blocks.toList).run t).1.2).on g).2) := rfl
  rw [hcall]
  generalize ((Replacement.findInBlocks f 0 g.blocks.toList).run t).1 = found
    at hperm hbodies hbranches ⊢
  have hvars : (found.1 ++ found.2).any (·.new.isVar) = more.any Operand.isVar := by
    rw [hperm.any_eq, List.any_map]
    rfl
  rw [replaceAll, hvars]
  split
  · rfl
  · have hlength : found.1.length + found.2.length = more.length := by
      rw [hperm.length_eq, List.length_map, List.length_append]
    simp only [on_bind, on_write, on_pure]
    rw [hlength, ← List.nil_append g.blocks.toList, hbodies, hbranches]
    rfl

theorem on_replaceOperandsBy {τ : Type} (f : Operand → StateM τ (Option Operand)) (t : τ) :
    (replaceOperandsBy f t).on g = settled g ((g.replaceOperandsM f).run t).1 := by
  have hcall : (replaceOperandsBy f t).on g
      = (((replaceOperands f t).run g).1.1, ((replaceOperands f t).run g).2) := rfl
  rw [hcall, run_replaceOperands f (Prod.eta _).symm]

/-! ## Branches -/

theorem on_addBranch (b : BlockId) (br : Branch) :
    (addBranch b br).on g = settled g ((g.addBranch b br).map (·, ())) := by
  refine on_ask_bind_map fun block _ => ?_
  by_cases hclosed : block.isClosed = true
  · simp only [if_pos hclosed]
    rfl
  simp only [if_neg hclosed]
  refine on_ask_bind_map fun expected _ => ?_
  by_cases hexpected : br.args.length ≠ expected
  · simp only [if_pos hexpected]
    rfl
  simp only [if_neg hexpected]
  -- a condition is looked up before the arguments are
  cases br.condition with
  | none => exact on_ask_bind_map fun _ _ => rfl
  | some c => exact on_ask_bind_map fun _ _ => on_ask_bind_map fun _ _ => rfl
end InPlace

/-! ## Every edit -/

/-- The edit as a call on the graph, which answers with the variable that it hands out. -/
def Graph.Edit.perform : Graph.Edit → InPlace Graph (Option Variable)
  | .addBlock => do let _ ← InPlace.addBlock; return none
  | .addParam b ty => return some (← InPlace.addParam b ty)
  | .addParamWith b ty default => return some (← InPlace.addParamWith b ty default)
  | .addParamAt b position ty default => return some (← InPlace.addParamAt b position ty default)
  | .push s => return some (← InPlace.push s)
  | .pushTo b s => return some (← InPlace.pushTo b s)
  | .prepend s => return some (← InPlace.prepend s)
  | .prependTo b s => return some (← InPlace.prependTo b s)
  | .insertBefore v s => return some (← InPlace.insertBefore v s)
  | .insertAfter v s => return some (← InPlace.insertAfter v s)
  | .set v s => do let _ ← InPlace.set v s; return none
  | .delete v => do let _ ← InPlace.delete v; return none
  | .replaceOperands f t => do let _ ← InPlace.replaceOperandsBy f t; return none
  | .recurse hook => do let _ ← InPlace.routeCalls (.const (.hook hook)); return none
  | .addBranch b br => do InPlace.addBranch b br; return none
  | .branchTo b target args => do InPlace.branchTo b target args; return none
  | .branchUnless b target args c => do InPlace.branchUnless b target args c; return none
  | .leaveWith b value => do InPlace.leaveWith b value; return none
  | .internLine l => do let _ ← InPlace.internLine l; return none

open InPlace

/-- **An edit in place comes to the edit as a whole.** -/
theorem Graph.Edit.on_perform (g : Graph) (e : Graph.Edit) :
    e.perform.on g = settled g (e.run g) := by
  have hbranch : ∀ b br,
      (do InPlace.addBranch b br; return none : InPlace Graph (Option Variable)).on g
        = settled g ((g.addBranch b br).map (·, none)) := by
    intro b br
    rw [on_bind, on_addBranch]
    cases g.addBranch b br <;> rfl
  cases e with
  | addBlock | recurse | internLine => rfl
  | addParam b ty => exact on_answer (on_addParamWith ..) some
  | addParamWith b ty default => exact on_answer (on_addParamWith ..) some
  | addParamAt b position ty default => exact on_answer (on_addParamAt ..) some
  | push s => exact on_answer (on_push s) some
  | pushTo b s => exact on_answer (on_pushTo ..) some
  | prepend s => exact on_answer (on_prependTo ..) some
  | prependTo b s => exact on_answer (on_prependTo ..) some
  | insertBefore v s => exact on_answer (on_insertBefore ..) some
  | insertAfter v s => exact on_answer (on_insertAfter ..) some
  | set v s => exact on_answer (on_set ..) fun _ => none
  | delete v => exact on_answer (on_delete v) fun _ => none
  | replaceOperands f t => exact on_answer (on_replaceOperandsBy f t) fun _ => none
  | addBranch b br => exact hbranch b br
  | branchTo b target args => exact hbranch b _
  | branchUnless b target args c => exact hbranch b _
  | leaveWith b value => exact hbranch b _

/-- **A refused edit changes nothing.** Whatever the graph and the edit, if the call on the graph
fails, then the graph after it is the graph before, with all its blocks, sites and lines, and if the
call succeeds, it is the graph that the edit makes. -/
theorem refused_edit_changes_nothing (g : Graph) (e : Graph.Edit) :
    (∀ error g', e.perform.on g = (.error error, g') → g' = g ∧ e.run g = .error error)
    ∧ ∀ new g', e.perform.on g = (.ok new, g') → e.run g = .ok (g', new) := by
  rw [e.on_perform g]
  rcases e.run g with error | ⟨g₁, new⟩
  · refine ⟨fun _ _ h => ?_, nofun⟩
    cases h
    exact ⟨rfl, rfl⟩
  · refine ⟨nofun, fun _ _ h => ?_⟩
    cases h
    rfl

/-- One replacement is a constant and the next a variable. Neither is made. -/
theorem refused_edit_changes_nothing_half_replaced :
    let g : Graph := ⟨#[.statement ⟨0⟩ 0],
      #[⟨[], [(⟨0⟩, .plain (.call (.global "f") [.const (.int 1)]))], [.leave (.var ⟨0⟩)]⟩], [],
      none⟩
    let e : Graph.Edit := .replaceOperands (fun op => pure (match op with
      | .global _ => some (.const .nothing)
      | _ => some (.var ⟨0⟩))) ()
    (e.perform.on g).1 = .error (.structural .variableReplacement) ∧ (e.perform.on g).2 = g := by
  intro g e
  have hfails : (e.perform.on g).1 = .error (.structural .variableReplacement) := rfl
  exact ⟨hfails, ((refused_edit_changes_nothing g e).1 _ _ (Prod.ext hfails rfl)).1⟩

end Interpose
