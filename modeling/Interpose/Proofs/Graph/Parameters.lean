import Mathlib.Data.List.InsertIdx
import Interpose.Proofs.Graph.Outline

/-!
# Graphs with one more parameter

A new parameter touches more of a graph than any other edit: the parameters of one block, and of all
blocks the branches that go there. Here is what stays the same, block by block: bodies, targets and
conditions, and so the walks through the graph. The rest only grows.

A constant reads nothing. So where branches pass a constant for the new parameter, a graph in order
stays in order. With a variable in its place this fails: the edit looks no further than that it is
bound, and it need not be bound before all the branches.
-/

set_option autoImplicit false

namespace Interpose

variable {b : BlockId} {position : Nat} {default : Operand}

namespace Branch

variable {br : Branch}

@[simp] theorem target_withArgument : (br.withArgument b position default).target = br.target := by
  unfold withArgument
  split <;> rfl

@[simp] theorem condition_withArgument :
    (br.withArgument b position default).condition = br.condition := by
  unfold withArgument
  split <;> rfl

theorem args_withArgument : (br.withArgument b position default).args
    = if br.target = .block b then br.args.insertIdx position default else br.args := by
  unfold withArgument
  split <;> rfl

/-- An argument that is put in reads what the default reads. -/
theorem uses_withArgument {v : Variable} (hv : v ∈ (br.withArgument b position default).uses) :
    v ∈ br.uses ∨ default.var? = some v := by
  rw [uses, condition_withArgument, args_withArgument] at hv
  rcases List.mem_append.1 hv with hv | hv
  · exact .inl (List.mem_append_left _ hv)
  · obtain ⟨op, hop, hread⟩ := List.mem_filterMap.1 hv
    have hargs : op = default ∨ op ∈ br.args := by
      split at hop
      · exact List.eq_or_mem_of_mem_insertIdx hop
      · exact .inr hop
    rcases hargs with rfl | hop
    · exact .inr hread
    · exact .inl (List.mem_append_right _ (List.mem_filterMap.2 ⟨op, hop, hread⟩))

end Branch

namespace Graph

variable {g : Graph} {c : BlockId} {block other : Block} {ty : Ty}

/-- The next variable is bound nowhere. -/
theorem Coherent.fresh_notMem_boundVars (h : g.Coherent) : g.fresh ∉ g.boundVars := fun hmem =>
  Nat.lt_irrefl _ (h.lt_varCount hmem)

theorem block?_withParam_of_block? (hc : g.block? c = some other) :
    (g.withParam b position ty default).block? c = some { other with
      params := if b = c then other.params.insertIdx position (g.fresh, ty) else other.params
      branches := other.branches.map (·.withArgument b position default) } := by
  rw [block?_withParam, hc, Option.map_some]

/-- Every block of the new graph is one of the old graph with the same body. -/
theorem exists_block_of_withParam {other' : Block}
    (hc : (g.withParam b position ty default).block? c = some other') :
    ∃ other, g.block? c = some other ∧ other'.body = other.body
      ∧ other'.params = (if b = c then other.params.insertIdx position (g.fresh, ty)
        else other.params)
      ∧ other'.branches = other.branches.map (·.withArgument b position default) := by
  rw [block?_withParam] at hc
  obtain ⟨other, hother, rfl⟩ := Option.map_eq_some_iff.1 hc
  exact ⟨other, hother, rfl, rfl, rfl⟩

/-- No parameter is lost. -/
theorem params_subset_withParam (hb : g.block? b = some block)
    (hle : position ≤ block.params.length) (hc : g.block? c = some other) (ty : Ty) :
    other.params ⊆ if b = c then other.params.insertIdx position (g.fresh, ty)
      else other.params := by
  by_cases hbc : b = c
  · subst hbc
    obtain rfl := Option.some.inj (hb.symm.trans hc)
    rw [if_pos rfl]
    exact fun e he => (List.mem_insertIdx hle).2 (.inr he)
  · rw [if_neg hbc]
    exact List.Subset.refl _

/-- What a block has bound at a place is still bound there. -/
theorem exists_boundAt_withParam (hb : g.block? b = some block)
    (hle : position ≤ block.params.length) (hc : g.block? c = some other) (ty : Ty)
    (default : Operand) :
    ∃ other', (g.withParam b position ty default).block? c = some other'
      ∧ other'.body = other.body ∧ ∀ place, other.boundAt place ⊆ other'.boundAt place := by
  refine ⟨_, block?_withParam_of_block? hc, rfl, fun place => ?_⟩
  have hparams := List.map_subset Prod.fst (params_subset_withParam hb hle hc ty)
  cases place with
  | none => exact List.append_subset.2 ⟨fun v hv => List.mem_append_left _ (hparams hv),
      List.subset_append_right _ _⟩
  | some i => exact List.append_subset.2 ⟨fun v hv => List.mem_append_left _ (hparams hv),
      List.subset_append_right _ _⟩

theorem boundVars_subset_withParam (hb : g.block? b = some block)
    (hle : position ≤ block.params.length) :
    g.boundVars ⊆ (g.withParam b position ty default).boundVars :=
  boundVars_subset_of_blocks fun _ _ hc =>
    have ⟨other', hc', _, hbound⟩ := exists_boundAt_withParam hb hle hc ty default
    ⟨other', hc', hbound none⟩

/-- Branches and parameters stay balanced, since all branches into the block pass one more
argument. -/
theorem Takes.withParam {br : Branch} (h : g.Takes br.target br.args.length)
    (hb : g.block? b = some block) (hle : position ≤ block.params.length) :
    (g.withParam b position ty default).Takes (br.withArgument b position default).target
      (br.withArgument b position default).args.length := by
  rw [Branch.target_withArgument, Branch.args_withArgument]
  rcases ht : br.target with t | _
  · rw [ht] at h
    obtain ⟨target, htarget, hlength⟩ := h
    by_cases hbt : b = t
    · subst hbt
      obtain rfl := Option.some.inj (hb.symm.trans htarget)
      refine ⟨_, block?_withParam_of_block? hb, ?_⟩
      dsimp only
      rw [if_pos rfl, if_pos rfl, List.length_insertIdx_of_le_length (hlength ▸ hle),
        List.length_insertIdx_of_le_length hle, hlength]
    · refine ⟨_, block?_withParam_of_block? htarget, ?_⟩
      dsimp only
      rw [if_neg fun heq => hbt (Target.block.inj heq).symm, if_neg hbt, hlength]
  · rw [if_neg nofun]
    rw [ht] at h
    exact h

/-- The new graph has no walks that the old one does not have. -/
theorem Walk.of_withParam {before : List BlockId}
    (hw : (g.withParam b position ty default).Walk c before) : g.Walk c before := by
  induction hw with
  | start => exact .start
  | @step d e before _ hfollows ih =>
    obtain ⟨other', hd, he⟩ := hfollows
    obtain ⟨other, hother, -, -, hbranches⟩ := exists_block_of_withParam hd
    have htargets : other'.targets = other.targets := by
      rw [Block.targets, Block.targets, hbranches, List.filterMap_map]
      refine List.filterMap_congr fun br _ => ?_
      rw [Function.comp_apply, Branch.block?, Branch.block?, Branch.target_withArgument]
    exact ih.step ⟨other, hother, htargets ▸ he⟩

theorem boundIn_subset_withParam (hb : g.block? b = some block)
    (hle : position ≤ block.params.length) (bs : List BlockId) :
    g.boundIn bs ⊆ (g.withParam b position ty default).boundIn bs := by
  intro v hv
  obtain ⟨c, hmem, other, hc, hv⟩ := mem_boundIn.1 hv
  obtain ⟨other', hc', -, hbound⟩ := exists_boundAt_withParam hb hle hc ty default
  exact mem_boundIn.2 ⟨c, hmem, other', hc', hbound none hv⟩

/-- **A graph in order stays in order** if the branches into the block pass something that reads
nothing. -/
theorem WellFormed.withParam (h : g.WellFormed) (hb : g.block? b = some block)
    (hle : position ≤ block.params.length) (hdefault : default.var? = none) :
    (g.withParam b position ty default).WellFormed where
  ends c other' hc := by
    obtain ⟨other, hother, -, -, hbranches⟩ := exists_block_of_withParam hc
    obtain ⟨front, last, hsplit, hlast, hfront⟩ := h.ends c other hother
    refine ⟨front.map (·.withArgument b position default), last.withArgument b position default,
      ?_, ?_, ?_⟩
    · rw [hbranches, hsplit, List.map_append, List.map_singleton]
    · rw [Branch.condition_withArgument, hlast]
    · refine List.forall_mem_map.2 fun br hbr => ?_
      rw [Branch.condition_withArgument]
      exact hfront br hbr
  balanced c other' hc br' hbr' := by
    obtain ⟨other, hother, -, -, hbranches⟩ := exists_block_of_withParam hc
    rw [hbranches] at hbr'
    obtain ⟨br, hbr, rfl⟩ := List.mem_map.1 hbr'
    exact (h.balanced c other hother br hbr).withParam hb hle
  bound c other' hc v hv := by
    obtain ⟨other, hother, hbody, -, hbranches⟩ := exists_block_of_withParam hc
    refine boundVars_subset_withParam hb hle (h.bound c other hother v ?_)
    rw [Block.uses, hbody, hbranches] at hv
    refine (List.mem_append.1 hv).elim (List.mem_append_left _) fun hv => List.mem_append_right _ ?_
    obtain ⟨br', hbr', hv⟩ := List.mem_flatMap.1 hv
    obtain ⟨br, hbr, rfl⟩ := List.mem_map.1 hbr'
    -- an argument is all that a branch may read in addition, and this one reads nothing
    rcases Branch.uses_withArgument hv with hv | hv
    · exact List.mem_flatMap.2 ⟨br, hbr, hv⟩
    · rw [hdefault] at hv
      cases hv
  statement c other' before hc hw i w s hi v hv := by
    obtain ⟨other, hother, hbody, -, -⟩ := exists_block_of_withParam hc
    obtain ⟨_, hc', -, hbound⟩ := exists_boundAt_withParam hb hle hother ty default
    obtain rfl := Option.some.inj (hc.symm.trans hc')
    rcases h.statement c other before hother hw.of_withParam i w s (hbody ▸ hi) v hv with hv | hv
    · exact .inl (boundIn_subset_withParam hb hle before hv)
    · exact .inr (hbound _ hv)
  branch c other' before hc hw br' hbr' v hv := by
    obtain ⟨other, hother, -, -, hbranches⟩ := exists_block_of_withParam hc
    obtain ⟨_, hc', -, hbound⟩ := exists_boundAt_withParam hb hle hother ty default
    obtain rfl := Option.some.inj (hc.symm.trans hc')
    rw [hbranches] at hbr'
    obtain ⟨br, hbr, rfl⟩ := List.mem_map.1 hbr'
    rcases Branch.uses_withArgument hv with hv | hv
    · rcases h.branch c other before hother hw.of_withParam br hbr v hv with hv | hv
      · exact .inl (boundIn_subset_withParam hb hle before hv)
      · exact .inr (hbound _ hv)
    · rw [hdefault] at hv
      cases hv

end Graph

end Interpose
