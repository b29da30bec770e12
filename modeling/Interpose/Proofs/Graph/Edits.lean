import Interpose.Proofs.Accepted
import Interpose.Proofs.Graph.Sites
import Interpose.Graph.Edit

/-!
# What an edit accepts and what it makes

An edit is a few checks and then a change. For every edit there is one lemma here that says both:
the edit answers with a graph *exactly if* its checks hold, and the graph is the old one with that
change. Later modules use these and open no edit again.
-/

set_option autoImplicit false

namespace Interpose

namespace Graph

variable {g g' : Graph}

/-! ## Checks -/

/-- A block that must exist is found exactly if it does. -/
theorem block_eq_ok {b : BlockId} {block : Block} :
    g.block b = .ok block ↔ g.block? b = some block := by
  unfold Graph.block
  cases g.block? b with
  | none => exact ⟨nofun, nofun⟩
  | some block' =>
    refine ⟨fun h => ?_, fun h => ?_⟩
    · rw [Except.ok.inj h]
    · rw [Option.some.inj h]

/-- A reference is accepted exactly if the variable has the site of a position. -/
theorem reference_eq_ok {v : Variable} {site : Site} :
    g.reference v = .ok site ↔ g.site? v = some site ∧ site ≠ .deleted := by
  unfold reference
  rcases hs : g.site? v with _ | site'
  · exact ⟨nofun, nofun⟩
  · cases site' with
    | deleted =>
      refine ⟨nofun, ?_⟩
      rintro ⟨h, hne⟩
      exact absurd (Option.some.inj h).symm hne
    | param b i =>
      refine ⟨fun h => ?_, fun h => congrArg Except.ok (Option.some.inj h.1)⟩
      obtain rfl := Except.ok.inj h
      exact ⟨rfl, nofun⟩
    | statement b i =>
      refine ⟨fun h => ?_, fun h => congrArg Except.ok (Option.some.inj h.1)⟩
      obtain rfl := Except.ok.inj h
      exact ⟨rfl, nofun⟩

/-- A variable is bound exactly if it has a site and is not deleted. -/
theorem isDefined_iff_site {v : Variable} :
    g.isDefined v = true ↔ ∃ site, g.site? v = some site ∧ site ≠ .deleted := by
  unfold isDefined
  rcases g.site? v with _ | site
  · simp
  · cases site <;> simp

/-- An operand is accepted exactly if it is bound or no variable. -/
theorem checkOperand_eq_ok {op : Operand} :
    g.checkOperand op = .ok () ↔ ∀ v, op.var? = some v → g.isDefined v = true := by
  cases op with
  | const c => exact ⟨fun _ => nofun, fun _ => rfl⟩
  | global name => exact ⟨fun _ => nofun, fun _ => rfl⟩
  | var v =>
    have hvar : (∀ w, (Operand.var v).var? = some w → g.isDefined w = true)
        ↔ g.isDefined v = true :=
      ⟨fun h => h v rfl, fun h w hw => Option.some.inj hw ▸ h⟩
    rw [hvar, isDefined_iff_site]
    simp only [checkOperand, bind_eq_ok, reference_eq_ok]
    exact exists_congr fun site => ⟨fun h => h.1, fun h => ⟨h, rfl⟩⟩

/-- A use is accepted exactly if the variable is bound, and not by the statement at the position or
a later one of the same block. -/
theorem checkUseAt_eq_ok {b : BlockId} {position : Nat} {v : Variable} :
    g.checkUseAt b position v = .ok ()
      ↔ g.isDefined v = true ∧ ∀ i, g.site? v = some (.statement b i) → i < position := by
  rw [isDefined_iff_site]
  simp only [checkUseAt, bind_eq_ok, reference_eq_ok]
  constructor
  · rintro ⟨site, hsite, hcheck⟩
    refine ⟨⟨site, hsite⟩, fun i hi => ?_⟩
    obtain rfl := Option.some.inj (hsite.1.symm.trans hi)
    by_cases hle : position ≤ i
    · simp [hle] at hcheck
    · exact Nat.lt_of_not_le hle
  · rintro ⟨⟨site, hsite⟩, hbefore⟩
    refine ⟨site, hsite, ?_⟩
    -- a parameter is bound before all statements, and the other blocks are looked at only when a
    -- graph is checked
    cases site with
    | param b' i => rfl
    | deleted => exact absurd rfl hsite.2
    | statement b' i =>
      by_cases hb : b' = b
      · subst hb
        have hlt := hbefore i hsite.1
        simp [Nat.not_le.2 hlt]
        rfl
      · simp [hb]
        rfl

/-- A statement is accepted at a position exactly if every variable that it reads is. -/
theorem checkStatement_eq_ok {b : BlockId} {position : Nat} {s : Statement} :
    g.checkStatement b position s = .ok ()
      ↔ ∀ v ∈ s.uses, g.isDefined v = true
        ∧ ∀ i, g.site? v = some (.statement b i) → i < position := by
  unfold checkStatement
  rw [forM_eq_ok]
  exact forall_congr' fun v => imp_congr_right fun _ => checkUseAt_eq_ok

/-- The place of a statement is found exactly if the table has it. -/
theorem statementSite_eq_ok {v : Variable} {b : BlockId} {i : Nat} :
    g.statementSite v = .ok (b, i) ↔ g.site? v = some (.statement b i) := by
  unfold statementSite
  rcases g.site? v with _ | site
  · exact ⟨nofun, nofun⟩
  · cases site <;> simp

/-! ## Blocks -/

/-- Changing a block changes that one and no other. -/
theorem block?_modifyBlock (g : Graph) (b c : BlockId) (f : Block → Block) :
    (g.modifyBlock b f).block? c = if b = c then (g.block? c).map f else g.block? c := by
  have hbc : b = c ↔ b.index = c.index := by cases b; cases c; simp
  simp only [block?, modifyBlock, Array.getElem?_modify, hbc]

/-- The new block stands behind the others and is empty. -/
theorem block?_addBlock (g : Graph) (c : BlockId) :
    g.addBlock.1.block? c = if c.index = g.blocks.size then some .empty else g.block? c := by
  simp only [block?, addBlock, Array.getElem?_push]

/-! ## Statements -/

/-- The graph with the next variable bound by a statement at a position of a block. -/
def inserted (g : Graph) (b : BlockId) (position : Nat) (s : Statement) : Graph :=
  let body := ((g.block? b).getD .empty).body.insertIdx position (g.fresh, s)
  let sites := number (.statement b) position ((body.drop position).map Prod.fst)
    (g.sites.push (.statement b position))
  { g.modifyBlock b ({ · with body }) with sites }

/-- The insertion changes the body of the block and nothing else. -/
theorem block?_inserted (g : Graph) (b c : BlockId) (position : Nat) (s : Statement) :
    (g.inserted b position s).block? c =
      if b = c then (g.block? c).map fun block =>
        { block with body := block.body.insertIdx position (g.fresh, s) }
      else g.block? c := by
  have hblocks : (g.inserted b position s).block? c = (g.modifyBlock b fun block =>
      { block with body := ((g.block? b).getD .empty).body.insertIdx position (g.fresh, s) }).block?
        c :=
    rfl
  rw [hblocks, block?_modifyBlock]
  by_cases hbc : b = c
  · subst hbc
    cases g.block? b <;> simp
  · rw [if_neg hbc, if_neg hbc]

theorem insertAt_eq_ok {b : BlockId} {position : Nat} {s : Statement} {v : Variable} :
    g.insertAt b position s = .ok (g', v)
      ↔ g.checkStatement b position s = .ok () ∧ g' = g.inserted b position s ∧ v = g.fresh := by
  unfold insertAt
  rw [bind_eq_ok]
  constructor
  · rintro ⟨_, hcheck, heq⟩
    cases heq
    exact ⟨hcheck, rfl, rfl⟩
  · rintro ⟨hcheck, rfl, rfl⟩
    exact ⟨_, hcheck, rfl⟩

theorem pushTo_eq_ok {b : BlockId} {s : Statement} {v : Variable} :
    g.pushTo b s = .ok (g', v) ↔ ∃ block, g.block? b = some block
      ∧ g.checkStatement b block.body.length s = .ok ()
      ∧ g' = g.inserted b block.body.length s ∧ v = g.fresh := by
  simp only [pushTo, bind_eq_ok, block_eq_ok, insertAt_eq_ok]

theorem prependTo_eq_ok {b : BlockId} {s : Statement} {v : Variable} :
    g.prependTo b s = .ok (g', v) ↔ ∃ block, g.block? b = some block
      ∧ g.checkStatement b 0 s = .ok () ∧ g' = g.inserted b 0 s ∧ v = g.fresh := by
  simp only [prependTo, bind_eq_ok, block_eq_ok, insertAt_eq_ok]

theorem insertBefore_eq_ok {v new : Variable} {s : Statement} :
    g.insertBefore v s = .ok (g', new) ↔ ∃ b i, g.site? v = some (.statement b i)
      ∧ g.checkStatement b i s = .ok () ∧ g' = g.inserted b i s ∧ new = g.fresh := by
  simp only [insertBefore, bind_eq_ok, Prod.exists, statementSite_eq_ok, insertAt_eq_ok]

theorem insertAfter_eq_ok {v new : Variable} {s : Statement} :
    g.insertAfter v s = .ok (g', new) ↔ ∃ b i, g.site? v = some (.statement b i)
      ∧ g.checkStatement b (i + 1) s = .ok () ∧ g' = g.inserted b (i + 1) s ∧ new = g.fresh := by
  simp only [insertAfter, bind_eq_ok, Prod.exists, statementSite_eq_ok, insertAt_eq_ok]

theorem set_eq_ok {v : Variable} {s old : Statement} :
    g.set v s = .ok (g', old) ↔ ∃ b i, g.site? v = some (.statement b i)
      ∧ g.checkStatement b i s = .ok ()
      ∧ g' = g.modifyBlock b (fun block => { block with
        body := block.body.modify i fun e => (e.1, s) })
      ∧ old = g.statementAt b i := by
  simp only [Graph.set, bind_eq_ok, Prod.exists, statementSite_eq_ok]
  refine exists_congr fun b => exists_congr fun i => and_congr_right fun _ => ?_
  constructor
  · rintro ⟨_, hcheck, heq⟩
    cases heq
    exact ⟨hcheck, rfl, rfl⟩
  · rintro ⟨hcheck, rfl, rfl⟩
    exact ⟨_, hcheck, rfl⟩

/-- The graph without the statement at a position of a block, which binds `v`. -/
def erased (g : Graph) (b : BlockId) (i : Nat) (v : Variable) : Graph :=
  let body := ((g.block? b).getD .empty).body.eraseIdx i
  let sites := (number (.statement b) i ((body.drop i).map Prod.fst) g.sites).setIfInBounds
    v.index .deleted
  { g.modifyBlock b ({ · with body }) with sites }

/-- The removal changes the body of the block and nothing else. -/
theorem block?_erased (g : Graph) (b c : BlockId) (i : Nat) (v : Variable) :
    (g.erased b i v).block? c = if b = c then (g.block? c).map fun block =>
      { block with body := block.body.eraseIdx i } else g.block? c := by
  have hblocks : (g.erased b i v).block? c = (g.modifyBlock b fun block =>
      { block with body := ((g.block? b).getD .empty).body.eraseIdx i }).block? c :=
    rfl
  rw [hblocks, block?_modifyBlock]
  by_cases hbc : b = c
  · subst hbc
    cases g.block? b <;> simp
  · rw [if_neg hbc, if_neg hbc]

/-- A variable is unused exactly if no block reads it. -/
theorem isUsed_eq_false {v : Variable} :
    g.isUsed v = false ↔ ∀ b block, g.block? b = some block → v ∉ block.uses := by
  rw [isUsed, Array.any_eq_false']
  constructor
  · intro hnone b block hb hread
    exact hnone block (Array.mem_of_getElem? hb) (List.contains_iff_mem.2 hread)
  · intro hnone block hmem hread
    obtain ⟨i, hi⟩ := Array.mem_iff_getElem?.1 hmem
    exact hnone ⟨i⟩ block hi (List.contains_iff_mem.1 hread)

theorem delete_eq_ok {v : Variable} {old : Statement} :
    g.delete v = .ok (g', old) ↔ ∃ b i, g.site? v = some (.statement b i)
      ∧ g.isUsed v = false ∧ g' = g.erased b i v ∧ old = g.statementAt b i := by
  simp only [Graph.delete, bind_eq_ok, Prod.exists, statementSite_eq_ok]
  refine exists_congr fun b => exists_congr fun i => and_congr_right fun _ => ?_
  rw [guard_eq_ok, Bool.not_eq_true]
  refine and_congr_right fun _ => ?_
  constructor
  · intro heq
    cases heq
    exact ⟨rfl, rfl⟩
  · rintro ⟨rfl, rfl⟩
    rfl

/-! ## Parameters -/

/-- The graph with the next variable as a parameter at a position of a block, for which branches
into the block pass `default`. -/
def withParam (g : Graph) (b : BlockId) (position : Nat) (ty : Ty) (default : Operand) : Graph :=
  let params := ((g.block? b).getD .empty).params.insertIdx position (g.fresh, ty)
  let sites := number (.param b) position ((params.drop position).map Prod.fst)
    (g.sites.push (.param b position))
  let blocks := (g.blocks.modify b.index ({ · with params })).map fun block =>
    { block with branches := block.branches.map (·.withArgument b position default) }
  { g with sites, blocks }

/-- The new parameter changes the parameters of the block and the branches that go to it. -/
theorem block?_withParam (g : Graph) (b c : BlockId) (position : Nat) (ty : Ty)
    (default : Operand) :
    (g.withParam b position ty default).block? c = (g.block? c).map fun block =>
      { block with
        params := if b = c then block.params.insertIdx position (g.fresh, ty) else block.params
        branches := block.branches.map (·.withArgument b position default) } := by
  have hblocks : (g.withParam b position ty default).block? c = ((g.modifyBlock b fun block =>
      { block with
        params :=
          ((g.block? b).getD .empty).params.insertIdx position (g.fresh, ty) }).block? c).map
      fun block => { block with
        branches := block.branches.map (·.withArgument b position default) } := by
    simp only [withParam, block?, modifyBlock, Array.getElem?_map]
  rw [hblocks, block?_modifyBlock]
  by_cases hbc : b = c
  · subst hbc
    cases g.block? b <;> simp
  · simp only [if_neg hbc]

theorem addParamAt_eq_ok {b : BlockId} {position : Nat} {ty : Ty} {default : Operand}
    {v : Variable} :
    g.addParamAt b position ty default = .ok (g', v) ↔ ∃ block, g.block? b = some block
      ∧ g.checkOperand default = .ok () ∧ position ≤ block.params.length
      ∧ g' = g.withParam b position ty default ∧ v = g.fresh := by
  simp only [addParamAt, bind_eq_ok, block_eq_ok]
  refine exists_congr fun block => and_congr_right fun hblock => ?_
  have hget : (g.block? b).getD .empty = block := by rw [hblock]; rfl
  rw [withParam, hget]
  simp only [guard_eq_ok, Nat.not_lt]
  constructor
  · rintro ⟨_, hcheck, hle, heq⟩
    cases heq
    exact ⟨hcheck, hle, rfl, rfl⟩
  · rintro ⟨hcheck, hle, rfl, rfl⟩
    exact ⟨_, hcheck, hle, rfl⟩

theorem addParamWith_eq_ok {b : BlockId} {ty : Ty} {default : Operand} {v : Variable} :
    g.addParamWith b ty default = .ok (g', v) ↔ ∃ block, g.block? b = some block
      ∧ g.checkOperand default = .ok () ∧ g' = g.withParam b block.params.length ty default
      ∧ v = g.fresh := by
  simp only [addParamWith, bind_eq_ok, block_eq_ok, addParamAt_eq_ok]
  refine exists_congr fun block => and_congr_right fun hblock => ?_
  constructor
  · rintro ⟨_, -, hcheck, -, heq⟩
    exact ⟨hcheck, heq⟩
  · rintro ⟨hcheck, heq⟩
    exact ⟨block, hblock, hcheck, Nat.le_refl _, heq⟩

/-! ## Branches -/

theorem targetArity_eq_ok {t : Target} {n : Nat} :
    g.targetArity t = .ok n ↔ match t with
      | .block b => ∃ block, g.block? b = some block ∧ n = block.params.length
      | .leave => n = 1 := by
  cases t with
  | leave =>
    refine ⟨fun h => (Except.ok.inj h).symm, fun h => ?_⟩
    rw [h]
    rfl
  | block b =>
    simp only [targetArity, bind_eq_ok, block_eq_ok]
    refine exists_congr fun block => and_congr_right fun _ => ?_
    refine ⟨fun h => (Except.ok.inj h).symm, fun h => ?_⟩
    rw [h]
    rfl

/-- A branch is added exactly if the block is not closed, the target takes as many arguments, and
what the branch reads is bound. -/
theorem addBranch_eq_ok {b : BlockId} {br : Branch} :
    g.addBranch b br = .ok g' ↔ ∃ block, g.block? b = some block ∧ block.isClosed = false
      ∧ g.targetArity br.target = .ok br.args.length ∧ (∀ v ∈ br.uses, g.isDefined v = true)
      ∧ g' = g.modifyBlock b fun block => { block with branches := block.branches ++ [br] } := by
  have huses : (∀ v ∈ br.uses, g.isDefined v = true)
      ↔ (∀ c, br.condition = some c → g.isDefined c = true)
        ∧ br.args.forM g.checkOperand = .ok () := by
    rw [forM_eq_ok]
    simp only [checkOperand_eq_ok, Branch.uses, List.mem_append, Option.mem_toList,
      List.mem_filterMap]
    constructor
    · intro h
      exact ⟨fun c hc => h c (.inl hc), fun op hop v hv => h v (.inr ⟨op, hop, hv⟩)⟩
    · rintro ⟨hcond, hargs⟩ v (hv | ⟨op, hop, hv⟩)
      · exact hcond v hv
      · exact hargs op hop v hv
  have hcond : (∀ c, br.condition = some c → g.isDefined c = true)
      ↔ ∀ c, br.condition = some c → ∃ site, g.reference c = .ok site := by
    simp only [isDefined_iff_site, reference_eq_ok]
  rw [huses, hcond]
  simp only [addBranch, bind_eq_ok, block_eq_ok, guard_eq_ok, Bool.not_eq_true, Decidable.not_not]
  -- a condition is checked before the arguments, and it is there or not
  refine exists_congr fun block => and_congr_right fun _ => and_congr_right fun _ => ?_
  cases br.condition with
  | none =>
    simp only [bind_eq_ok]
    constructor
    · rintro ⟨_, harity, rfl, _, hargs, heq⟩
      exact ⟨harity, ⟨nofun, hargs⟩, (Except.ok.inj heq).symm⟩
    · rintro ⟨harity, ⟨-, hargs⟩, rfl⟩
      exact ⟨_, harity, rfl, _, hargs, rfl⟩
  | some c =>
    simp only [bind_eq_ok]
    constructor
    · rintro ⟨_, harity, rfl, site, hsite, _, hargs, heq⟩
      refine ⟨harity, ⟨fun c' hc' => ?_, hargs⟩, (Except.ok.inj heq).symm⟩
      exact Option.some.inj hc' ▸ ⟨site, hsite⟩
    · rintro ⟨harity, ⟨hdef, hargs⟩, rfl⟩
      obtain ⟨site, hsite⟩ := hdef c rfl
      exact ⟨_, harity, rfl, site, hsite, _, hargs, rfl⟩

end Graph

end Interpose
