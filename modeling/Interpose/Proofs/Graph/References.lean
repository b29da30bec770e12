import Mathlib.Data.List.Basic
import Interpose.Graph.Check

/-!
# The constants and globals of a graph

The constants and globals that stand in a graph are called its *references* here. A graph is its
references, in the order of the text, and what remains of it when all of them are blanked out. The
rest decides almost everything: where a run can go, what is bound and what is read, and so what the
check of the graph says. The references show only in the text of a branch that the check complains
about.
-/

set_option autoImplicit false

namespace Interpose

/-! ## References and the rest -/

/-- The operand, or the same constant for all that are no variables. -/
def Operand.blanked : Operand → Operand
  | .var v => .var v
  | _ => .const .nothing

/-- The constants and globals among operands. -/
def Operand.references (ops : List Operand) : List Operand := ops.filter fun op => !op.isVar

/-- The branch with its references blanked out. -/
def Branch.blanked (br : Branch) : Branch := { br with args := br.args.map Operand.blanked }

/-- The block with its references blanked out. -/
def Block.blanked (b : Block) : Block :=
  { b with
    body := b.body.map fun e => (e.1, e.2.map Operand.blanked)
    branches := b.branches.map Branch.blanked }

/-- The operands of a block, statement by statement, each from its callee on, then branch by branch.
A condition is no operand. -/
def Block.operands (b : Block) : List Operand :=
  b.body.flatMap (·.2.operation.operands) ++ b.branches.flatMap Branch.args

namespace Graph

/-- The graph with its references blanked out. -/
def blanked (g : Graph) : Graph := { g with blocks := g.blocks.map Block.blanked }

/-- The references of a graph, block by block. -/
def references (g : Graph) : List Operand :=
  Operand.references (g.blocks.toList.flatMap Block.operands)

end Graph

/-- The error with the references in the branch that it shows blanked out. -/
def GraphError.blanked : GraphError → GraphError
  | .structural (.unbalanced br b expected) => .structural (.unbalanced br.blanked b expected)
  | e => e

@[simp] theorem Operand.var?_blanked (op : Operand) : op.blanked.var? = op.var? := by
  cases op <;> rfl

theorem Operand.eq_var {op : Operand} {v : Variable} (h : op.var? = some v) : op = .var v := by
  cases op with
  | var w => rw [Option.some.inj h]
  | const _ | global _ => cases h

@[simp] theorem Operand.references_append (ops ops' : List Operand) :
    references (ops ++ ops') = references ops ++ references ops' := List.filter_append ..

/-! ## Nothing else -/

section Parts

open Operand (references)

/-- Operands are their references and the rest. -/
theorem operands_eq_of_references {ops ops' : List Operand}
    (hrest : ops.map Operand.blanked = ops'.map Operand.blanked)
    (h : references ops = references ops') : ops = ops' := by
  induction ops generalizing ops' with
  | nil => exact (List.map_eq_nil_iff.1 hrest.symm).symm
  | cons op ops ih =>
    obtain ⟨op', ops', rfl, hop, hops⟩ := List.map_eq_cons_iff.1 hrest.symm
    have hvar : op'.var? = op.var? := by rw [← op'.var?_blanked, hop, op.var?_blanked]
    by_cases hv : op.isVar = true
    · obtain ⟨v, hv⟩ := Option.isSome_iff_exists.1 hv
      have hop : op = .var v := Operand.eq_var hv
      have hop' : op' = .var v := Operand.eq_var (hvar.trans hv)
      subst hop hop'
      rw [ih hops.symm h]
    · have hv' : op'.isVar = false := by simpa [Operand.isVar, hvar] using hv
      rw [references, references, List.filter_cons_of_pos (by simp [hv]),
        List.filter_cons_of_pos (by simp [hv'])] at h
      obtain ⟨rfl, hrefs⟩ := List.cons.inj h
      rw [ih hops.symm hrefs]

/-- The rest says how many references there are. -/
theorem length_references {ops ops' : List Operand}
    (hrest : ops.map Operand.blanked = ops'.map Operand.blanked) :
    (references ops).length = (references ops').length := by
  have hcount : ∀ l : List Operand,
      (references l).length = ((l.map Operand.blanked).filter fun op => !op.isVar).length := by
    intro l
    rw [List.filter_map, List.length_map]
    refine congrArg List.length (List.filter_congr fun op _ => ?_)
    simp [Operand.isVar]
  rw [hcount, hcount, hrest]

variable {α : Type} {operands : α → List Operand} {blank : α → α}

/-- Two parts of a graph with the same references and the same rest are the same. -/
def Splits (operands : α → List Operand) (blank : α → α) : Prop :=
  ∀ x y, blank x = blank y → references (operands x) = references (operands y) → x = y

/-- If this holds of one statement, branch or block, it holds of a list of them. -/
theorem Splits.list (h : Splits operands blank)
    (hblank : ∀ x, operands (blank x) = (operands x).map Operand.blanked) :
    Splits (fun xs : List α => xs.flatMap operands) (List.map blank) := by
  intro xs ys hrest href
  induction xs generalizing ys with
  | nil => exact (List.map_eq_nil_iff.1 hrest.symm).symm
  | cons x xs ih =>
    obtain ⟨y, ys, rfl, hxy, hys⟩ := List.map_eq_cons_iff.1 hrest.symm
    have hlength : (references (operands x)).length = (references (operands y)).length := by
      refine length_references ?_
      rw [← hblank, ← hblank, hxy]
    simp only [List.flatMap_cons, Operand.references_append] at href
    -- the rest tells where the references of the first part end
    obtain ⟨hone, hmore⟩ := List.append_inj href hlength
    rw [h x y hxy.symm hone, ih ys hys.symm hmore]

variable (operands blank) in
/-- The operands of a list of parts are blanked out part by part. -/
theorem flatMap_blanked (hblank : ∀ x, operands (blank x) = (operands x).map Operand.blanked)
    (xs : List α) :
    (xs.map blank).flatMap operands = (xs.flatMap operands).map Operand.blanked := by
  simp only [List.flatMap_map, List.map_flatMap, hblank]

end Parts

theorem splits_entry : Splits (fun e : Variable × Statement => e.2.operation.operands)
    fun e => (e.1, e.2.map Operand.blanked) := by
  rintro ⟨v, operation, ty, line⟩ ⟨v', operation', ty', line'⟩ hrest href
  simp only [Statement.map, Prod.mk.injEq, Statement.mk.injEq] at hrest
  obtain ⟨rfl, hmap, rfl, rfl⟩ := hrest
  have hoperands : operation.operands = operation'.operands := by
    refine operands_eq_of_references ?_ href
    rw [← Operation.operands_map, ← Operation.operands_map, hmap]
  have hsame : operation = operation' := by
    cases operation <;> cases operation' <;> simp_all [Operation.operands, Operation.map]
  rw [hsame]

theorem splits_branch : Splits Branch.args Branch.blanked := by
  rintro ⟨target, condition, args⟩ ⟨target', condition', args'⟩ hrest href
  simp only [Branch.blanked, Branch.mk.injEq] at hrest
  obtain ⟨rfl, rfl, hargs⟩ := hrest
  rw [operands_eq_of_references hargs href]

/-- The operands of a block are blanked out with it. -/
theorem Block.operands_blanked (b : Block) :
    b.blanked.operands = b.operands.map Operand.blanked := by
  have hbody := flatMap_blanked (fun e : Variable × Statement => e.2.operation.operands)
    (fun e => (e.1, e.2.map Operand.blanked))
    (fun e => Operation.operands_map _ e.2.operation) b.body
  have hbranches := flatMap_blanked Branch.args Branch.blanked (fun _ => rfl) b.branches
  rw [operands, operands, List.map_append, ← hbody, ← hbranches]
  rfl

theorem splits_block : Splits Block.operands Block.blanked := by
  rintro ⟨params, body, branches⟩ ⟨params', body', branches'⟩ hrest href
  simp only [Block.blanked, Block.mk.injEq] at hrest
  obtain ⟨rfl, hbody, hbranches⟩ := hrest
  have hentry : ∀ e : Variable × Statement,
      (e.2.map Operand.blanked).operation.operands = e.2.operation.operands.map Operand.blanked :=
    fun e => Operation.operands_map _ e.2.operation
  have hlength : (Operand.references (body.flatMap (·.2.operation.operands))).length
      = (Operand.references (body'.flatMap (·.2.operation.operands))).length := by
    refine length_references ?_
    rw [← flatMap_blanked _ (fun e => (e.1, e.2.map Operand.blanked)) hentry,
      ← flatMap_blanked _ (fun e => (e.1, e.2.map Operand.blanked)) hentry, hbody]
  simp only [Block.operands, Operand.references_append] at href
  obtain ⟨hstatements, hargs⟩ := List.append_inj href hlength
  rw [splits_entry.list hentry body body' hbody hstatements,
    splits_branch.list (fun _ => rfl) branches branches' hbranches hargs]

/-- **A graph is its references and the rest.** -/
theorem Graph.eq_of_references {g g' : Graph} (hrest : g.blanked = g'.blanked)
    (h : g.references = g'.references) : g = g' := by
  obtain ⟨sites, blocks, lines, provenance⟩ := g
  obtain ⟨sites', blocks', lines', provenance'⟩ := g'
  simp only [blanked, Graph.mk.injEq] at hrest
  obtain ⟨rfl, hblocks, rfl, rfl⟩ := hrest
  have hlist := congrArg Array.toList hblocks
  rw [Array.toList_map, Array.toList_map] at hlist
  have hsame := splits_block.list Block.operands_blanked _ _ hlist h
  rw [Array.toList_inj.1 hsame]

/-! ## The check -/

theorem Statement.uses_blanked (s : Statement) : (s.map Operand.blanked).uses = s.uses := by
  rw [uses, map, Operation.uses, Operation.operands_map, List.filterMap_map, uses, Operation.uses]
  exact List.filterMap_congr fun op _ => op.var?_blanked

@[simp] theorem Branch.uses_blanked (br : Branch) : br.blanked.uses = br.uses := by
  rw [uses, blanked, List.filterMap_map, uses]
  exact congrArg (br.condition.toList ++ ·) (List.filterMap_congr fun op _ => op.var?_blanked)

@[simp] theorem Block.targets_blanked (b : Block) : b.blanked.targets = b.targets := by
  rw [targets, blanked, List.filterMap_map]
  rfl

section Errors

variable {α β ε : Type} (f : ε → ε)

@[simp] theorem mapError_bind (x : Except ε α) (k : α → Except ε β) :
    (x >>= k).mapError f = x.mapError f >>= fun a => (k a).mapError f := by
  cases x <;> rfl

/-- If a check finds with every changed element what the other one finds with the element, it finds
with all of them what the other finds. -/
theorem forM_map_eq_mapError {F : α → β} {k : α → Except ε Unit} {k' : β → Except ε Unit}
    (h : ∀ a, k' (F a) = (k a).mapError f) (l : List α) :
    (l.map F).forM k' = (l.forM k).mapError f := by
  induction l with
  | nil => rfl
  | cons a l ih =>
    show (k' (F a) >>= fun _ => (l.map F).forM k') = (k a >>= fun _ => l.forM k).mapError f
    rw [mapError_bind, h, ih]

end Errors

namespace Graph

variable (g : Graph)

theorem block?_blanked (b : BlockId) : g.blanked.block? b = (g.block? b).map Block.blanked := by
  simp [block?, blanked]

@[simp] theorem blockIds_blanked : g.blanked.blockIds = g.blockIds := by
  simp [blockIds, blanked]

@[simp] theorem successors_blanked (b : BlockId) : g.blanked.successors b = g.successors b := by
  rw [successors, successors, block?_blanked]
  cases g.block? b with
  | none => rfl
  | some block => simp

@[simp] theorem explore_blanked (seen work : List BlockId) :
    g.blanked.explore seen work = g.explore seen work := by
  have hsize : g.blanked.blocks.size = g.blocks.size := Array.size_map
  induction seen, work using Graph.explore.induct g with
  | case1 seen => simp [explore]
  | case2 seen b rest h ih =>
    rw [explore, explore, if_pos h, if_pos (hsize ▸ h), successors_blanked]
    exact ih
  | case3 seen b rest h ih =>
    rw [explore, explore, if_neg h, if_neg (hsize ▸ h)]
    exact ih

@[simp] theorem reachable_blanked : g.blanked.reachable = g.reachable := by
  simp [reachable]

@[simp] theorem dominators_blanked : g.blanked.dominators = g.dominators := by
  have hpredecessors : g.blanked.predecessors = g.predecessors := by
    funext b
    simp [predecessors]
  rw [dominators, dominators, hpredecessors, dominatorsVia, dominatorsVia, reachable_blanked,
    blockIds_blanked]

theorem indexedBlocks_blanked :
    g.blanked.indexedBlocks = g.indexedBlocks.map fun e => (e.1, e.2.blanked) := by
  simp [indexedBlocks, blanked, List.zipIdx_map]

variable {g} {b : BlockId} {block : Block} {br : Branch}

theorem checkBranch_blanked :
    g.blanked.checkBranch b br.blanked = (g.checkBranch b br).mapError GraphError.blanked := by
  have hcount : ∀ n, (if br.blanked.args.length ≠ n
      then throw (.structural (.unbalanced br.blanked b n)) else pure ()
        : Except GraphError Unit)
      = (if br.args.length ≠ n then throw (.structural (.unbalanced br b n)) else pure ()
        : Except GraphError Unit).mapError GraphError.blanked := by
    intro n
    have hargs : br.blanked.args.length = br.args.length := List.length_map ..
    rw [hargs]
    split <;> rfl
  have htarget : br.blanked.target = br.target := rfl
  unfold checkBranch
  rw [htarget]
  cases br.target with
  | leave => exact hcount 1
  | block t =>
    simp only [block?_blanked]
    cases g.block? t with
    | none => rfl
    | some block => exact hcount block.params.length

theorem checkEnd_blanked :
    g.blanked.checkEnd b block.blanked = (g.checkEnd b block).mapError GraphError.blanked := by
  have hlast : block.blanked.branches.getLast? = block.branches.getLast?.map Branch.blanked :=
    List.getLast?_map ..
  have hearly : (block.blanked.branches.dropLast.any fun br => !br.isConditional)
      = block.branches.dropLast.any fun br => !br.isConditional := by
    rw [Block.blanked, ← List.map_dropLast, List.any_map]
    rfl
  have hbranches : block.blanked.branches.forM (g.blanked.checkBranch b)
      = (block.branches.forM (g.checkBranch b)).mapError GraphError.blanked :=
    forM_map_eq_mapError _ (fun _ => checkBranch_blanked) block.branches
  unfold checkEnd
  rw [hlast, hearly, hbranches]
  cases block.branches.getLast? with
  | none => rfl
  | some last =>
    by_cases hopen : last.isConditional = true
    · have hopen' : last.blanked.isConditional = true := hopen
      simp only [Option.map_some, if_pos hopen, if_pos hopen']
      rfl
    · have hopen' : ¬last.blanked.isConditional = true := hopen
      simp only [Option.map_some, if_neg hopen, if_neg hopen']
      split
      · rfl
      · rfl

theorem checkBlockUses_blanked (doms : Option (List BlockId)) :
    g.blanked.checkBlockUses b doms block.blanked
      = (g.checkBlockUses b doms block).mapError GraphError.blanked := by
  have huse : ∀ place v,
      g.blanked.checkUse b place doms v
        = (g.checkUse b place doms v).mapError GraphError.blanked := by
    intro place v
    have hsite : g.blanked.site? v = g.site? v := rfl
    rw [checkUse, checkUse, hsite]
    split
    · rfl
    · rfl
    · split
      · rfl
      · split
        · rfl
        · rfl
  have huses : ∀ place (uses : List Variable), uses.forM (g.blanked.checkUse b place doms)
      = (uses.forM (g.checkUse b place doms)).mapError GraphError.blanked := by
    intro place uses
    simpa using forM_map_eq_mapError (F := id) _ (huse place) uses
  -- positions are counted along the body, and blanking keeps its length
  rw [checkBlockUses, checkBlockUses, mapError_bind, Block.blanked, List.zipIdx_map]
  congr 1
  · refine forM_map_eq_mapError _ (fun e => ?_) block.body.zipIdx
    obtain ⟨⟨v, s⟩, position⟩ := e
    show (s.map Operand.blanked).uses.forM (g.blanked.checkUse b (some position) doms) = _
    rw [s.uses_blanked]
    exact huses (some position) s.uses
  · funext _
    refine forM_map_eq_mapError _ (fun br => ?_) block.branches
    rw [br.uses_blanked]
    exact huses none br.uses

theorem verifyUses_blanked : g.blanked.verifyUses = g.verifyUses.mapError GraphError.blanked := by
  rw [verifyUses, verifyUses, indexedBlocks_blanked, reachable_blanked, dominators_blanked]
  refine forM_map_eq_mapError _ (fun e => ?_) g.indexedBlocks
  exact checkBlockUses_blanked _

/-- **The check of a graph does not look at references.** -/
theorem verify_blanked (g : Graph) : g.blanked.verify = g.verify.mapError GraphError.blanked := by
  rw [verify, verify, mapError_bind, indexedBlocks_blanked, verifyUses_blanked]
  congr 1
  refine forM_map_eq_mapError _ (fun e => ?_) g.indexedBlocks
  exact checkEnd_blanked

end Graph

end Interpose
