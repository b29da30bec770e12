import Interpose.Proofs.Graph.Arising
import Interpose.Proofs.Graph.Outline

/-!
# What canonical numbers refer to

A copy with other numbers is the same program only if every operand of the copy refers to the copy
of what it referred to. Canonical numbers are given to the variables that are bound, and an operand
that refers to nothing any more keeps its number. The number may by then belong to another variable.
The operand refers to that one in the copy, and a graph that was out of order has a copy that is in
order.

This does not happen as long as the operands that refer to nothing have numbers past the new ones.
Then the copy is in order exactly if the graph is. It never happens to a graph in order, whose
operands all refer to something.

The first half of the argument is about any renaming of the blocks, and asks only that it does not
send what is read and what is bound to one number. The second half says when canonical numbers do
not.
-/

set_option autoImplicit false

namespace Interpose

/-! ## Renamed blocks -/

section Rename

variable (f : Variable → Variable)

theorem Operand.filterMap_var?_rename (ops : List Operand) :
    (ops.map (Graph.renameOperand f)).filterMap Operand.var?
      = (ops.filterMap Operand.var?).map f := by
  rw [List.filterMap_map, List.map_filterMap]
  refine List.filterMap_congr fun op _ => ?_
  cases op <;> rfl

theorem Statement.uses_rename (s : Statement) :
    (s.map (Graph.renameOperand f)).uses = s.uses.map f := by
  simp only [Statement.uses, Statement.map, Operation.uses, Operation.operands_map,
    Operand.filterMap_var?_rename]

/-- A branch with every variable renamed. -/
def Branch.rename (br : Branch) : Branch :=
  { br with condition := br.condition.map f, args := br.args.map (Graph.renameOperand f) }

theorem Branch.uses_rename (br : Branch) : (br.rename f).uses = br.uses.map f := by
  simp only [Branch.uses, Branch.rename, List.map_append, Operand.filterMap_var?_rename,
    Option.toList_map]

namespace Block

variable (block : Block)

theorem branches_rename :
    (Graph.renameBlock f block).branches = block.branches.map (Branch.rename f) := rfl

theorem length_params_rename : (Graph.renameBlock f block).params.length = block.params.length :=
  List.length_map _

theorem targets_rename : (Graph.renameBlock f block).targets = block.targets := by
  rw [targets, branches_rename, List.filterMap_map]
  rfl

theorem uses_rename : (Graph.renameBlock f block).uses = block.uses.map f := by
  rw [uses, branches_rename, List.flatMap_map, uses, List.map_append, List.map_flatMap,
    List.map_flatMap]
  simp only [Branch.uses_rename, Graph.renameBlock, List.flatMap_map, Statement.uses_rename]

theorem paramVars_rename : (Graph.renameBlock f block).paramVars = block.paramVars.map f := by
  simp [Graph.renameBlock, paramVars, Function.comp_def]

theorem bodyVars_rename : (Graph.renameBlock f block).bodyVars = block.bodyVars.map f := by
  simp [Graph.renameBlock, bodyVars, Function.comp_def]

/-- What the renamed block has bound at a place is what the block has bound there, renamed. -/
theorem boundAt_rename (place : Option Nat) :
    (Graph.renameBlock f block).boundAt place = (block.boundAt place).map f := by
  cases place with
  | none => simp only [boundAt, boundVars, paramVars_rename, bodyVars_rename, List.map_append]
  | some i => simp only [boundAt, paramVars_rename, bodyVars_rename, List.map_append, List.map_take]

end Block

end Rename

namespace Graph

/-! ## Names that stay -/

theorem renameOperand_id (op : Operand) : renameOperand id op = op := by cases op <;> rfl

theorem renameBlock_id (block : Block) : renameBlock id block = block := by
  have hoperand : renameOperand id = id := funext renameOperand_id
  have hoperation : ∀ e : Operation, e.map id = e := by
    intro e
    cases e with
    | call callee args => rw [Operation.map, List.map_id, id]
    | operand op => rfl
  have hstatement : ∀ s : Statement, s.map id = s := fun s => by rw [Statement.map, hoperation]
  rw [renameBlock, hoperand]
  simp only [hstatement, id_eq, List.map_id, List.map_id', Option.map_id]

/-! ## Any renaming of the blocks -/

/-- The blocks of the second graph are those of the first with every variable renamed. -/
def RenamedBy (f : Variable → Variable) (g g' : Graph) : Prop :=
  ∀ b, g'.block? b = (g.block? b).map (renameBlock f)

/-- The renaming gives no variable that is read the new number of another one that is bound. -/
def KeepsApart (f : Variable → Variable) (g : Graph) : Prop :=
  ∀ b block, g.block? b = some block → ∀ v ∈ block.uses, ∀ w ∈ g.boundVars, f v = f w → v = w

namespace RenamedBy

variable {f : Variable → Variable} {g g' : Graph}

theorem block (h : RenamedBy f g g') {b : BlockId} {block : Block} (hb : g.block? b = some block) :
    g'.block? b = some (renameBlock f block) := by
  rw [h b, hb]
  rfl

theorem exists_block (h : RenamedBy f g g') {b : BlockId} {block' : Block}
    (hb : g'.block? b = some block') :
    ∃ block, g.block? b = some block ∧ renameBlock f block = block' :=
  Option.map_eq_some_iff.1 ((h b).symm.trans hb)

theorem follows_iff (h : RenamedBy f g g') {b c : BlockId} : g'.Follows b c ↔ g.Follows b c := by
  constructor
  · rintro ⟨block', hb', hc⟩
    obtain ⟨block, hb, rfl⟩ := h.exists_block hb'
    exact ⟨block, hb, block.targets_rename f ▸ hc⟩
  · rintro ⟨block, hb, hc⟩
    exact ⟨_, h.block hb, (block.targets_rename f).symm ▸ hc⟩

theorem walk_iff (h : RenamedBy f g g') {b : BlockId} {before : List BlockId} :
    g'.Walk b before ↔ g.Walk b before := by
  constructor
  · intro hw
    induction hw with
    | start => exact .start
    | step _ hbc ih => exact ih.step (h.follows_iff.1 hbc)
  · intro hw
    induction hw with
    | start => exact .start
    | step _ hbc ih => exact ih.step (h.follows_iff.2 hbc)

theorem boundIn (h : RenamedBy f g g') (bs : List BlockId) :
    g'.boundIn bs = (g.boundIn bs).map f := by
  rw [Graph.boundIn, Graph.boundIn, List.map_flatMap]
  refine congrArg (List.flatMap · bs) (funext fun b => ?_)
  rw [h b]
  cases g.block? b with
  | none => rfl
  | some block => exact block.boundAt_rename f none

theorem row (h : RenamedBy f g g') (r : Row) : g'.row r = (g.row r).map f := by
  cases r with
  | params b =>
    rw [row_params, row_params, h b]
    cases g.block? b with
    | none => rfl
    | some block => exact block.paramVars_rename f
  | body b =>
    rw [row_body, row_body, h b]
    cases g.block? b with
    | none => rfl
    | some block => exact block.bodyVars_rename f

theorem mem_boundVars_iff (h : RenamedBy f g g') {v' : Variable} :
    v' ∈ g'.boundVars ↔ ∃ v ∈ g.boundVars, f v = v' := by
  constructor
  · intro hv'
    obtain ⟨b, block', hb', hv'⟩ := mem_boundVars_iff_block?.1 hv'
    obtain ⟨block, hb, rfl⟩ := h.exists_block hb'
    obtain ⟨v, hv, heq⟩ :=
      List.mem_map.1 (block.boundAt_rename f none ▸ hv' : v' ∈ (block.boundAt none).map f)
    exact ⟨v, mem_boundVars_of_block? hb hv, heq⟩
  · rintro ⟨v, hv, rfl⟩
    obtain ⟨b, block, hb, hv⟩ := mem_boundVars_iff_block?.1 hv
    have hmem : f v ∈ (renameBlock f block).boundAt none :=
      (block.boundAt_rename f none).symm ▸ List.mem_map_of_mem hv
    exact mem_boundVars_of_block? (h.block hb) hmem

theorem takes_iff (h : RenamedBy f g g') {t : Target} {n : Nat} : g'.Takes t n ↔ g.Takes t n := by
  constructor
  · refine Takes.of_blocks fun b block' hb' => ?_
    obtain ⟨block, hb, rfl⟩ := h.exists_block hb'
    exact ⟨block, hb, (block.length_params_rename f).symm⟩
  · exact Takes.of_blocks fun b block hb => ⟨_, h.block hb, block.length_params_rename f⟩

/-- How blocks end is not a matter of numbers. -/
theorem wellEnded_iff (h : RenamedBy f g g') : g'.WellEnded ↔ g.WellEnded := by
  have hconditions : ∀ block : Block, (renameBlock f block).branches.map Branch.isConditional
      = block.branches.map Branch.isConditional := by
    intro block
    rw [Block.branches_rename, List.map_map]
    exact List.map_congr_left fun br _ => Option.isSome_map
  have hlength : ∀ br : Branch, (br.rename f).args.length = br.args.length :=
    fun br => List.length_map _
  constructor
  · intro hg
    refine ⟨fun b block hb => ends_of_conditions (hconditions block).symm
      (hg.ends b _ (h.block hb)), fun b block hb br hbr => ?_⟩
    have htakes := hg.balanced b _ (h.block hb) (br.rename f) (List.mem_map_of_mem hbr)
    rw [hlength] at htakes
    exact h.takes_iff.1 htakes
  · intro hg
    refine ⟨fun b block' hb' => ?_, fun b block' hb' br' hbr' => ?_⟩
    · obtain ⟨block, hb, rfl⟩ := h.exists_block hb'
      exact ends_of_conditions (hconditions block) (hg.ends b block hb)
    · obtain ⟨block, hb, rfl⟩ := h.exists_block hb'
      obtain ⟨br, hbr, rfl⟩ := List.mem_map.1 hbr'
      exact h.takes_iff.2 ((hlength br).symm ▸ hg.balanced b block hb br hbr)

/-- What is bound before it is read is bound before it is read under any names. -/
theorem wellUsed (h : RenamedBy f g g') (hg : g.WellUsed) : g'.WellUsed where
  bound b block' hb' v' hv' := by
    obtain ⟨block, hb, rfl⟩ := h.exists_block hb'
    rw [Block.uses_rename] at hv'
    obtain ⟨v, hv, rfl⟩ := List.mem_map.1 hv'
    exact h.mem_boundVars_iff.2 ⟨v, hg.bound b block hb v hv, rfl⟩
  statement b block' before hb' hw i w' s' hi' v' hv' := by
    obtain ⟨block, hb, rfl⟩ := h.exists_block hb'
    rw [renameBlock, List.getElem?_map] at hi'
    obtain ⟨⟨w, s⟩, hi, heq⟩ := Option.map_eq_some_iff.1 hi'
    obtain ⟨rfl, rfl⟩ := Prod.mk.inj heq
    rw [Statement.uses_rename] at hv'
    obtain ⟨v, hv, rfl⟩ := List.mem_map.1 hv'
    rw [h.boundIn, Block.boundAt_rename]
    exact (hg.statement b block before hb (h.walk_iff.1 hw) i w s hi v hv).imp
      List.mem_map_of_mem List.mem_map_of_mem
  branch b block' before hb' hw br' hbr' v' hv' := by
    obtain ⟨block, hb, rfl⟩ := h.exists_block hb'
    obtain ⟨br, hbr, rfl⟩ := List.mem_map.1 hbr'
    obtain ⟨v, hv, rfl⟩ := List.mem_map.1 (br.uses_rename f ▸ hv' : v' ∈ br.uses.map f)
    rw [h.boundIn, Block.boundAt_rename]
    exact (hg.branch b block before hb (h.walk_iff.1 hw) br hbr v hv).imp
      List.mem_map_of_mem List.mem_map_of_mem

/-- Where the renaming keeps apart what is read and what is bound, no read is made good by it. -/
theorem wellUsed_iff (h : RenamedBy f g g') (hapart : KeepsApart f g) :
    g'.WellUsed ↔ g.WellUsed := by
  refine ⟨fun hg => ?_, h.wellUsed⟩
  -- a read whose new number is one of those bound has been one of those bound itself
  have hback : ∀ {b block v} {l : List Variable}, g.block? b = some block → v ∈ block.uses →
      l ⊆ g.boundVars →
      f v ∈ l.map f → v ∈ l := by
    intro b block v l hb hv hsub hmem
    obtain ⟨w, hw, heq⟩ := List.mem_map.1 hmem
    exact hapart b block hb v hv w (hsub hw) heq.symm ▸ hw
  have hboundIn : ∀ bs, g.boundIn bs ⊆ g.boundVars := by
    intro bs v hv
    obtain ⟨b, -, block, hb, hv⟩ := mem_boundIn.1 hv
    exact mem_boundVars_of_block? hb hv
  have hboundAt : ∀ {b block} place, g.block? b = some block → block.boundAt place ⊆ g.boundVars :=
    fun place hb v hv => mem_boundVars_of_block? hb (Block.boundAt_subset _ place hv)
  refine ⟨fun b block hb v hv => ?_, fun b block before hb hw i w s hi v hv => ?_,
    fun b block before hb hw br hbr v hv => ?_⟩
  · have hmem : f v ∈ g'.boundVars := by
      refine hg.bound b _ (h.block hb) (f v) ?_
      rw [Block.uses_rename]
      exact List.mem_map_of_mem hv
    obtain ⟨w, hw, heq⟩ := h.mem_boundVars_iff.1 hmem
    exact hapart b block hb v hv w hw heq.symm ▸ hw
  · have hread : v ∈ block.uses :=
      List.mem_append_left _ (List.mem_flatMap.2 ⟨(w, s), List.mem_iff_getElem?.2 ⟨i, hi⟩, hv⟩)
    have hi' : (renameBlock f block).body[i]? = some (f w, s.map (renameOperand f)) := by
      rw [renameBlock, List.getElem?_map, hi]
      rfl
    have hmem := hg.statement b _ before (h.block hb) (h.walk_iff.2 hw) i _ _ hi' (f v)
      (s.uses_rename f ▸ List.mem_map_of_mem hv)
    rw [h.boundIn, Block.boundAt_rename] at hmem
    exact hmem.imp (hback hb hread (hboundIn before)) (hback hb hread (hboundAt _ hb))
  · have hread : v ∈ block.uses := List.mem_append_right _ (List.mem_flatMap.2 ⟨br, hbr, hv⟩)
    have hmem := hg.branch b _ before (h.block hb) (h.walk_iff.2 hw) (br.rename f)
      (List.mem_map_of_mem hbr) (f v) (br.uses_rename f ▸ List.mem_map_of_mem hv)
    rw [h.boundIn, Block.boundAt_rename] at hmem
    exact hmem.imp (hback hb hread (hboundIn before)) (hback hb hread (hboundAt _ hb))

end RenamedBy

/-! ## Canonical numbers -/

section Numbers

variable {bound : List Variable} {v : Variable} {i : Nat}

theorem rename_of_notMem (h : v ∉ bound) : rename bound v = v := by
  have hnone : bound.findIdx? (· == v) = none :=
    List.findIdx?_eq_none_iff.2 fun w hw => beq_false_of_ne fun heq => h (heq ▸ hw)
  rw [rename, hnone]

/-- The variable at a place among the bound ones has the number of the place. -/
theorem rename_of_getElem? (hnd : bound.Nodup) (hi : bound[i]? = some v) :
    rename bound v = ⟨i⟩ := by
  have hlt := (List.getElem?_eq_some_iff.1 hi).1
  have hmap : (bound.map (rename bound))[i]? = ((List.range bound.length).map .mk)[i]? := by
    rw [map_rename_self hnd]
  rw [List.getElem?_map, hi, List.getElem?_map, List.getElem?_range hlt] at hmap
  exact Option.some.inj hmap

/-- A variable has the new number of a bound one only if it is that one, or if it is not bound and
has had a number among the new ones before. -/
theorem eq_of_rename_eq (hnd : bound.Nodup) (hv : v ∈ bound ∨ bound.length ≤ v.index) {w : Variable}
    (hw : w ∈ bound) (heq : rename bound v = rename bound w) : v = w := by
  obtain ⟨j, hj⟩ := List.mem_iff_getElem?.1 hw
  have hlt := (List.getElem?_eq_some_iff.1 hj).1
  rw [rename_of_getElem? hnd hj] at heq
  by_cases hmem : v ∈ bound
  · obtain ⟨i, hi⟩ := List.mem_iff_getElem?.1 hmem
    obtain rfl : i = j := congrArg Variable.index ((rename_of_getElem? hnd hi).symm.trans heq)
    exact Option.some.inj (hi.symm.trans hj)
  · rw [rename_of_notMem hmem] at heq
    have hle := hv.resolve_left hmem
    rw [heq] at hle
    exact absurd hlt (Nat.not_lt.2 hle)

end Numbers

variable {g : Graph}

/-- What is read is bound, or has a number past those that the bound variables are given. -/
def ReadsApart (g : Graph) : Prop :=
  ∀ b block, g.block? b = some block → ∀ v ∈ block.uses, v ∈ g.boundVars
    ∨ g.boundVars.length ≤ v.index

theorem renamedBy_canonical (g : Graph) : RenamedBy (rename g.boundVars) g g.canonical :=
  fun b => Array.getElem?_map (i := b.index) ..

/-- The table of the copy has, under each new number, the site of the variable that was given the
number. -/
theorem Coherent.site?_canonical (h : g.Coherent) (v : Variable) :
    g.canonical.site? v = g.boundVars[v.index]?.bind g.site? := by
  have hnd := h.nodup_boundVars
  rcases hw : g.boundVars[v.index]? with _ | w
  · refine Array.getElem?_eq_none ?_
    have hsize : g.canonical.sites.size = g.boundVars.length := size_sitesOf ..
    exact hsize ▸ List.getElem?_eq_none_iff.1 hw
  · obtain ⟨r, hr⟩ := (Coherent.mem_boundVars_iff g w).1 (List.mem_iff_getElem?.2 ⟨_, hw⟩)
    obtain ⟨i, hi⟩ := List.mem_iff_getElem?.1 hr
    have hrow : (g.canonical.row r)[i]? = some v := by
      rw [(renamedBy_canonical g).row, List.getElem?_map, hi]
      exact congrArg some (rename_of_getElem? hnd hw)
    have hsite : g.site? w = some (r.site i) := (h w r i).2 hi
    rw [Option.bind_some, hsite]
    exact (h.canonical v r i).2 hrow

/-- **A copy under canonical numbers** has at every place the operand of the graph, renamed. A bound
variable is defined in the copy where it is defined in the graph. One that is bound nowhere keeps
its number, and names in the copy the variable that was given that number, if there is one. A graph
in order has a copy in order. If the numbers that refer to nothing are past the new ones, then they
refer to nothing in the copy, and the copy is in order exactly if the graph is. -/
theorem canonical_refers (h : Arises g) :
    (∀ b, g.canonical.block? b = (g.block? b).map (renameBlock (rename g.boundVars)))
    ∧ (∀ v ∈ g.boundVars, g.canonical.site? (rename g.boundVars v) = g.site? v)
    ∧ (∀ v ∉ g.boundVars, rename g.boundVars v = v
      ∧ g.canonical.site? v = g.boundVars[v.index]?.bind g.site?)
    ∧ (g.verify = .ok () → g.canonical.verify = .ok ())
    ∧ (g.ReadsApart →
      (∀ b block, g.block? b = some block → ∀ v ∈ block.uses, v ∉ g.boundVars →
        g.canonical.site? (rename g.boundVars v) = none)
      ∧ (g.canonical.verify = .ok () ↔ g.verify = .ok ())) := by
  have hcoherent := h.coherent
  have hnd := hcoherent.nodup_boundVars
  have hrenamed := renamedBy_canonical g
  have hverify : g.canonical.verify = .ok () ↔ g.canonical.WellFormed :=
    hcoherent.canonical.verify_eq_ok
  refine ⟨hrenamed, fun v hv => ?_, fun v hv => ⟨rename_of_notMem hv, hcoherent.site?_canonical v⟩,
    fun hok => ?_, fun hapart => ⟨fun b block hb v hread hv => ?_, ?_⟩⟩
  · obtain ⟨i, hi⟩ := List.mem_iff_getElem?.1 hv
    rw [rename_of_getElem? hnd hi, hcoherent.site?_canonical, hi]
    rfl
  · have hg := hcoherent.verify_eq_ok.1 hok
    exact hverify.2 ⟨hrenamed.wellEnded_iff.2 hg.toWellEnded, hrenamed.wellUsed hg.toWellUsed⟩
  · have hle := (hapart b block hb v hread).resolve_left hv
    rw [rename_of_notMem hv, hcoherent.site?_canonical, List.getElem?_eq_none hle]
    rfl
  · have hkeeps : KeepsApart (rename g.boundVars) g := fun b block hb v hv w hw =>
      eq_of_rename_eq hnd (hapart b block hb v hv) hw
    rw [hverify, hcoherent.verify_eq_ok]
    exact ⟨fun hg => ⟨hrenamed.wellEnded_iff.1 hg.toWellEnded,
      (hrenamed.wellUsed_iff hkeeps).1 hg.toWellUsed⟩,
      fun hg => ⟨hrenamed.wellEnded_iff.2 hg.toWellEnded, hrenamed.wellUsed hg.toWellUsed⟩⟩

/-! ## Reads that refer to nothing -/

/-- Work on an empty graph: the entry goes to the third block, and the second binds a variable and
cannot be reached. The third reads that variable, and binds another one before or after the second
block does. Then what cannot be reached is removed. -/
def strandedWork (early : Bool) : List Work :=
  let here : Work := .edit (.pushTo ⟨2⟩ (.plain (.operand (.const (.int 2)))))
  let there : Work := .edit (.pushTo ⟨1⟩ (.plain (.operand (.const (.int 1)))))
  let apart : List Work :=
    [.edit .addBlock, .edit .addBlock, .edit (.branchTo .entry ⟨2⟩ []),
      .edit (.leaveWith ⟨1⟩ (.const (.int 0)))]
  let last : Work := .edit (.leaveWith ⟨2⟩ (.var (if early then ⟨1⟩ else ⟨0⟩)))
  apart ++ (if early then [here, there] else [there, here]) ++ [last, .prune]

/-- What is left by that work: a block that reads a variable whose definition is gone. -/
def stranded (early : Bool) : Graph where
  sites := if early then #[.statement ⟨1⟩ 0, .deleted] else #[.deleted, .statement ⟨1⟩ 0]
  blocks := #[⟨[], [], [.jump ⟨1⟩ []]⟩,
    ⟨[], [(if early then ⟨0⟩ else ⟨1⟩, .plain (.operand (.const (.int 2))))],
      [.leave (.var (if early then ⟨1⟩ else ⟨0⟩))]⟩]
  lines := []
  provenance := none

theorem arises_stranded (early : Bool) : Arises (stranded early) :=
  have hwork : (Graph.workAll .empty (strandedWork early)).1 = stranded early := by
    cases early <;> cbv
  hwork ▸ (Arises.initial .empty).workAll (strandedWork early)

/-- The variable of the other block is the second, and its number is past the only new one: the copy
is out of order as the graph is. -/
theorem canonical_refers_stranded : Arises (stranded true) ∧ (stranded true).ReadsApart
    ∧ (stranded true).canonical.site? (rename (stranded true).boundVars ⟨1⟩) = none
    ∧ (stranded true).canonical.verify ≠ .ok () := by
  have hapart : (stranded true).ReadsApart := by
    have hall : ∀ block ∈ (stranded true).blocks.toList, ∀ v ∈ block.uses,
        v ∈ (stranded true).boundVars ∨ (stranded true).boundVars.length ≤ v.index := by decide
    exact fun b block hb => hall block (Array.mem_toList_iff.2 (Array.mem_of_getElem? hb))
  obtain ⟨-, -, -, -, hsame⟩ := canonical_refers (arises_stranded true)
  obtain ⟨hnone, hiff⟩ := hsame hapart
  have hverify : (stranded true).verify = .error (.structural (.dangling ⟨1⟩)) := by cbv
  refine ⟨arises_stranded true, hapart, hnone ⟨1⟩ _ rfl ⟨1⟩ (by decide) (by decide), fun hok => ?_⟩
  rw [hiff.1 hok] at hverify
  cases hverify

/-- The variable of the other block is the first: the read refers to the only variable that is left
in the copy, and the copy is in order. -/
theorem canonical_refers_elsewhere : Arises (stranded false)
    ∧ (stranded false).verify = .error (.structural (.dangling ⟨0⟩))
    ∧ (stranded false).canonical.verify = .ok ()
    ∧ (stranded false).site? ⟨0⟩ = some .deleted
    ∧ (stranded false).canonical.site? (rename (stranded false).boundVars ⟨0⟩)
      = (stranded false).site? ⟨1⟩
    ∧ (stranded false).site? ⟨1⟩ = some (.statement ⟨1⟩ 0) :=
  ⟨arises_stranded false, by cbv, by cbv, by cbv, by cbv, by cbv⟩

end Graph

end Interpose
