import Mathlib.Data.List.Permutation
import Interpose.Proofs.Compiling
import Interpose.Proofs.Graph.Editing
import Interpose.Proofs.Graph.Parameters

/-!
# Direct edits keep a graph in order as far as they can see

A graph under construction may lack the ends of blocks, and whether definitions reach their uses
across blocks is not known before it is complete. Everything else that `Graph.verify` asks for holds
at every moment: what is read is bound, and inside one block bound before; branches go to blocks
that exist and are balanced; only the last branch of a block is always taken. A graph with these
four properties is *tidy*.

No edit checks all of this. An insertion looks at the new statement only, and relies on the new
variable being read nowhere; a removal looks for uses and relies on order being kept; a new
parameter touches the branches of all blocks. For each change it is shown here why what is not
checked holds nevertheless.
-/

set_option autoImplicit false

namespace Interpose

namespace Block

/-- No statement of the block reads what it binds itself, or what a later one binds. -/
structure InOrder (block : Block) : Prop where
  itself : ∀ e ∈ block.body, e.1 ∉ e.2.uses
  later : block.body.Pairwise fun e l => l.1 ∉ e.2.uses

/-- The order of a block is that of its readings. -/
theorem inOrder_iff (block : Block) : block.InOrder
    ↔ (∀ e ∈ block.readings, e.1 ∉ e.2) ∧ block.readings.Pairwise fun e l => l.1 ∉ e.2 := by
  have hitself : (∀ e ∈ block.readings, e.1 ∉ e.2) ↔ ∀ e ∈ block.body, e.1 ∉ e.2.uses :=
    List.forall_mem_map
  have hlater : (block.readings.Pairwise fun e l => l.1 ∉ e.2)
      ↔ block.body.Pairwise fun e l => l.1 ∉ e.2.uses := List.pairwise_map
  rw [hitself, hlater]
  exact ⟨fun h => ⟨h.itself, h.later⟩, fun h => ⟨h.1, h.2⟩⟩

/-- Taking a statement out of a block in order leaves it in order. -/
theorem InOrder.erase {block : Block} (h : block.InOrder) (i : Nat) :
    ({ block with body := block.body.eraseIdx i } : Block).InOrder where
  itself e he := h.itself e ((List.eraseIdx_sublist _ _).subset he)
  later := h.later.sublist (List.eraseIdx_sublist _ _)

/-- A statement may stand between others if they do not read what it binds, and it reads nothing
that is bound there or behind. -/
theorem InOrder.put {block : Block} {front back : List (Variable × Statement)}
    {e : Variable × Statement}
    (hfront : ∀ f ∈ front, f.1 ∉ f.2.uses ∧ e.1 ∉ f.2.uses ∧ ∀ b ∈ back, b.1 ∉ f.2.uses)
    (hfronts : front.Pairwise fun e l => l.1 ∉ e.2.uses) (hself : e.1 ∉ e.2.uses)
    (hback : ∀ b ∈ back, b.1 ∉ b.2.uses ∧ b.1 ∉ e.2.uses)
    (hbacks : back.Pairwise fun e l => l.1 ∉ e.2.uses) :
    ({ block with body := front ++ e :: back } : Block).InOrder where
  itself := by
    intro x hx
    rcases List.mem_append.1 hx with hx | hx
    · exact (hfront x hx).1
    · rcases List.mem_cons.1 hx with rfl | hx
      · exact hself
      · exact (hback x hx).1
  later := by
    refine List.pairwise_append.2
      ⟨hfronts, List.pairwise_cons.2 ⟨fun b hb => (hback b hb).2, hbacks⟩, ?_⟩
    intro f hf x hx
    rcases List.mem_cons.1 hx with rfl | hx
    · exact (hfront f hf).2.1
    · exact (hfront f hf).2.2 x hx

end Block

namespace Graph

/-- A graph in order as far as single edits can see. -/
structure Tidy (g : Graph) : Prop where
  coherent : g.Coherent
  /-- Everything that is read is bound. -/
  bound : ∀ b block, g.block? b = some block → ∀ v ∈ block.uses, v ∈ g.boundVars
  /-- Inside one block it is bound before. -/
  ordered : ∀ b block, g.block? b = some block → block.InOrder
  /-- Every branch goes to a block that exists, or returns, and passes what is taken there. -/
  balanced : ∀ b block, g.block? b = some block →
    ∀ br ∈ block.branches, g.Takes br.target br.args.length
  /-- Only the last branch of a block is always taken. -/
  conditional : ∀ b block, g.block? b = some block →
    ∀ br ∈ block.branches.dropLast, br.condition ≠ none

variable {g g' : Graph} {new : Option Variable}

/-- A change of one block keeps a graph tidy if the changed block is in order and what the blocks
read is still bound. -/
theorem Tidy.modify (h : g.Tidy) (hg' : g'.Coherent) {b : BlockId} {block : Block}
    {f : Block → Block} (hb : g.block? b = some block)
    (hblocks : ∀ c, g'.block? c = if b = c then (g.block? c).map f else g.block? c)
    (hread : ∀ c other, g.block? c = some other → ∀ v ∈ other.uses, v ∈ g'.boundVars)
    (huses : ∀ v ∈ (f block).uses, v ∈ g'.boundVars) (horder : (f block).InOrder)
    (hparams : (f block).params = block.params)
    (hbranches : ∀ br ∈ (f block).branches, g.Takes br.target br.args.length)
    (hconditional : ∀ br ∈ (f block).branches.dropLast, br.condition ≠ none) : g'.Tidy := by
  have hforth : ∀ c other, g.block? c = some other →
      ∃ other', g'.block? c = some other' ∧ other'.params.length = other.params.length := by
    intro c other hc
    rw [hblocks, hc]
    by_cases hbc : b = c
    · subst hbc
      rw [hb] at hc
      obtain rfl := Option.some.inj hc
      exact ⟨f block, if_pos rfl, by rw [hparams]⟩
    · exact ⟨other, if_neg hbc, rfl⟩
  -- a block of the new graph is the changed one or one of the old ones
  have hcases : ∀ {P : Block → Prop}, P (f block) → (∀ c other, g.block? c = some other → P other) →
      ∀ c other, g'.block? c = some other → P other := by
    intro P hnew hold c other hc
    rw [hblocks] at hc
    split at hc
    · next hbc =>
      subst hbc
      rw [hb] at hc
      exact Option.some.inj hc ▸ hnew
    · exact hold c other hc
  exact
    { coherent := hg'
      bound := hcases huses hread
      ordered := hcases horder h.ordered
      balanced := hcases (fun br hbr => (hbranches br hbr).of_blocks hforth)
        fun c other hc br hbr => (h.balanced c other hc br hbr).of_blocks hforth
      conditional := hcases hconditional h.conditional }

/-- A graph with the outline of a tidy graph is tidy. -/
theorem Tidy.of_outline (h : g.Tidy) (hg' : g'.Coherent) (hsame : g.SameOutline g') : g'.Tidy := by
  refine ⟨hg', fun b block' hb' v hv => ?_, fun b block' hb' => ?_, fun b block' hb' br hbr => ?_,
    fun b block' hb' br hbr => ?_⟩
  all_goals
    obtain ⟨block, hb, houtline⟩ := hsame.symm.exists_block hb'
    have hexits : block'.exits = block.exits := congrArg (fun o => o.2.2) houtline.symm
    have hreadings : block'.readings = block.readings := congrArg (fun o => o.2.1) houtline.symm
  · rw [Block.mem_uses, hreadings, hexits, ← Block.mem_uses] at hv
    exact hsame.boundVars_subset (h.bound b block hb v hv)
  · rw [Block.inOrder_iff, hreadings, ← Block.inOrder_iff]
    exact h.ordered b block hb
  · obtain ⟨br₀, hbr₀, htarget, -, hlength, -⟩ := Block.exists_branch_of_exits hexits hbr
    rw [htarget, hlength]
    exact hsame.takes (h.balanced b block hb br₀ hbr₀)
  · have hmem := List.mem_map_of_mem (f := fun br : Branch =>
      (br.target, br.condition, br.args.length, br.uses)) hbr
    rw [List.map_dropLast, ← Block.exits, hexits, Block.exits, ← List.map_dropLast] at hmem
    obtain ⟨br₀, hbr₀, heq⟩ := List.mem_map.1 hmem
    simp only [Prod.mk.injEq] at heq
    rw [← heq.2.1]
    exact h.conditional b block hb br₀ hbr₀

/-! ## Statements -/

/-- What `checkStatement` accepts before a position does not read what stands there or behind. -/
theorem Tidy.notMem_uses (h : g.Tidy) {b : BlockId} {block : Block} (hb : g.block? b = some block)
    {front back : List (Variable × Statement)} (hbody : block.body = front ++ back) {s : Statement}
    (hcheck : g.checkStatement b front.length s = .ok ()) {e : Variable × Statement}
    (he : e ∈ back) : e.1 ∉ s.uses := by
  intro hmem
  obtain ⟨j, hj⟩ := List.mem_iff_getElem?.1 he
  have hrow : (g.row (.body b))[front.length + j]? = some e.1 := by
    rw [row_body_of_block? hb, Block.bodyVars, hbody, List.getElem?_map,
      List.getElem?_append_right (Nat.le_add_right _ _), Nat.add_sub_cancel_left, hj]
    rfl
  have hlt := (checkStatement_eq_ok.1 hcheck e.1 hmem).2 _ ((h.coherent e.1 (.body b) _).2 hrow)
  omega

/-- What `checkStatement` accepts reads bound variables. -/
theorem Tidy.mem_boundVars_of_check (h : g.Tidy) {b : BlockId} {i : Nat} {s : Statement}
    (hcheck : g.checkStatement b i s = .ok ()) {v : Variable} (hv : v ∈ s.uses) : v ∈ g.boundVars :=
  (h.coherent.isDefined_iff v).1 (checkStatement_eq_ok.1 hcheck v hv).1

theorem Tidy.mem_boundVars_of_body (h : g.Tidy) {b : BlockId} {block : Block}
    (hb : g.block? b = some block) {e : Variable × Statement} (he : e ∈ block.body) {v : Variable}
    (hv : v ∈ e.2.uses) : v ∈ g.boundVars :=
  h.bound b block hb v (List.mem_append_left _ (List.mem_flatMap.2 ⟨e, he, hv⟩))

theorem Tidy.inserted (h : g.Tidy) {b : BlockId} {block : Block} {position : Nat} {s : Statement}
    (hb : g.block? b = some block) (hle : position ≤ block.body.length)
    (hcheck : g.checkStatement b position s = .ok ()) : (g.inserted b position s).Tidy := by
  obtain ⟨front, back, hbody, rfl⟩ : ∃ front back, block.body = front ++ back
    ∧ front.length = position :=
    ⟨_, _, (List.take_append_drop position _).symm, List.length_take_of_le hle⟩
  have hnew : block.body.insertIdx front.length (g.fresh, s) = front ++ (g.fresh, s) :: back := by
    rw [hbody, insertIdx_append]
  have hcoherent := h.coherent.inserted hb hle s
  have hvars : g.boundVars ⊆ (g.inserted b front.length s).boundVars := by
    refine boundVars_subset_of_blocks fun c other hc => ?_
    rw [block?_inserted, hc]
    by_cases hbc : b = c
    · subst hbc
      obtain rfl := Option.some.inj (hb.symm.trans hc)
      refine ⟨_, if_pos rfl, ?_⟩
      have hsub : block.body.Sublist (front ++ (g.fresh, s) :: back) :=
        hbody ▸ (List.Sublist.refl front).append (List.sublist_cons_self _ _)
      simp only [Block.boundVars, Block.paramVars, Block.bodyVars, hnew]
      exact ((List.Sublist.refl _).append (hsub.map _)).subset
    · exact ⟨other, if_neg hbc, List.Subset.refl _⟩
  have hfresh := h.coherent.fresh_notMem_boundVars
  -- nothing of the old graph reads the new variable
  have hold : ∀ e ∈ block.body, g.fresh ∉ e.2.uses := fun e he hread =>
    hfresh (h.mem_boundVars_of_body hb he hread)
  have hordered := h.ordered b block hb
  refine h.modify hcoherent hb (block?_inserted g b · front.length s)
    (fun c other hc v hv => hvars (h.bound c other hc v hv)) ?_ ?_ rfl (h.balanced b block hb)
    (h.conditional b block hb)
  · intro v hv
    rw [Block.uses, hnew] at hv
    rcases List.mem_append.1 hv with hv | hv
    · obtain ⟨e, he, hv⟩ := List.mem_flatMap.1 hv
      rcases List.mem_append.1 he with he | he
      · exact hvars (h.mem_boundVars_of_body hb (hbody ▸ List.mem_append_left _ he) hv)
      · rcases List.mem_cons.1 he with rfl | he
        · exact hvars (h.mem_boundVars_of_check hcheck hv)
        · exact hvars (h.mem_boundVars_of_body hb (hbody ▸ List.mem_append_right _ he) hv)
    · exact hvars (h.bound b block hb v (List.mem_append_right _ hv))
  · rw [hnew]
    rw [hbody] at hold
    obtain ⟨hitself, hlater⟩ := hordered
    rw [hbody] at hitself hlater
    obtain ⟨hfronts, hbacks, hacross⟩ := List.pairwise_append.1 hlater
    refine .put (fun f hf => ⟨hitself f (List.mem_append_left _ hf),
      hold f (List.mem_append_left _ hf), hacross f hf⟩) hfronts (fun hread => hfresh
        (h.mem_boundVars_of_check hcheck hread))
      (fun e he => ⟨hitself e (List.mem_append_right _ he), h.notMem_uses hb hbody hcheck he⟩)
      hbacks

/-- The statement that is set in a place reads what the old one might have read there. -/
theorem Tidy.withStatement (h : g.Tidy) {v : Variable} {b : BlockId} {i : Nat} {s : Statement}
    (hv : g.site? v = some (.statement b i)) (hcheck : g.checkStatement b i s = .ok ()) :
    (g.modifyBlock b fun block => { block with
      body := block.body.modify i fun e => (e.1, s) }).Tidy := by
  obtain ⟨block, old, hb, hentry⟩ := h.coherent.statement_of_site hv
  obtain ⟨front, back, hbody, rfl⟩ := exists_append_cons_of_getElem? hentry
  have hnew : block.body.modify front.length (fun e => (e.1, s)) = front ++ (v, s) :: back := by
    rw [hbody, modify_append]
  -- nothing is bound anew, and nothing is bound no longer
  have hvars : ∀ w ∈ g.boundVars, w ∈ (g.modifyBlock b fun block =>
      { block with body := block.body.modify front.length fun e => (e.1, s) }).boundVars := by
    refine boundVars_subset_of_blocks fun c other hc => ?_
    rw [block?_modifyBlock, hc]
    by_cases hbc : b = c
    · subst hbc
      obtain rfl := Option.some.inj (hb.symm.trans hc)
      refine ⟨_, if_pos rfl, ?_⟩
      simp only [Block.boundVars, Block.paramVars, Block.bodyVars, hnew]
      rw [hbody, List.map_append, List.map_append, List.map_cons, List.map_cons]
      exact List.Subset.refl _
    · exact ⟨other, if_neg hbc, List.Subset.refl _⟩
  have hordered := h.ordered b block hb
  refine h.modify (h.coherent.withStatement b _ s) hb (block?_modifyBlock g b · _)
    (fun c other hc w hw => hvars w (h.bound c other hc w hw)) ?_ ?_ rfl (h.balanced b block hb)
    (h.conditional b block hb)
  · intro w hw
    rw [Block.uses, hnew] at hw
    rcases List.mem_append.1 hw with hw | hw
    · obtain ⟨e, he, hw⟩ := List.mem_flatMap.1 hw
      rcases List.mem_append.1 he with he | he
      · exact hvars w (h.mem_boundVars_of_body hb (hbody ▸ List.mem_append_left _ he) hw)
      · rcases List.mem_cons.1 he with rfl | he
        · exact hvars w (h.mem_boundVars_of_check hcheck hw)
        · exact hvars w (h.mem_boundVars_of_body hb
            (hbody ▸ List.mem_append_right _ (List.mem_cons_of_mem _ he)) hw)
    · exact hvars w (h.bound b block hb w (List.mem_append_right _ hw))
  · rw [hnew]
    -- the check refused what the statement itself binds and what is bound behind it in the block
    obtain ⟨hitself, hlater⟩ := hordered
    rw [hbody] at hitself hlater
    obtain ⟨hfronts, hbacks, hacross⟩ := List.pairwise_append.1 hlater
    refine .put (fun f hf => ⟨hitself f (List.mem_append_left _ hf),
      hacross f hf (v, old) List.mem_cons_self,
        fun e he => hacross f hf e (List.mem_cons_of_mem _ he)⟩) hfronts
      (h.notMem_uses hb hbody hcheck (e := (v, old)) List.mem_cons_self)
      (fun e he => ⟨hitself e (List.mem_append_right _ (List.mem_cons_of_mem _ he)),
        h.notMem_uses hb hbody hcheck (List.mem_cons_of_mem _ he)⟩) (List.pairwise_cons.1 hbacks).2

/-- A variable is removed only where nothing reads it, so what is read stays bound. -/
theorem Tidy.erased (h : g.Tidy) {v : Variable} {b : BlockId} {i : Nat}
    (hv : g.site? v = some (.statement b i)) (hunused : g.isUsed v = false) :
    (g.erased b i v).Tidy := by
  obtain ⟨block, old, hb, hentry⟩ := h.coherent.statement_of_site hv
  -- another variable keeps its place or moves back by one, and so it is still bound
  have hread : ∀ c other, g.block? c = some other → ∀ w ∈ other.uses,
      w ∈ (g.erased b i v).boundVars := by
    intro c other hc w hw
    have hne : w ≠ v := by
      rintro rfl
      exact isUsed_eq_false.1 hunused c other hc hw
    obtain ⟨d, home, hd, hw⟩ := mem_boundVars_iff_block?.1 (h.bound c other hc w hw)
    rw [mem_boundVars_iff_block?]
    simp only [block?_erased]
    by_cases hbd : b = d
    · subst hbd
      obtain rfl := Option.some.inj (hb.symm.trans hd)
      refine ⟨b, _, by rw [if_pos rfl, hb]; rfl, ?_⟩
      rcases List.mem_append.1 hw with hw | hw
      · exact List.mem_append_left _ hw
      · refine List.mem_append_right _ ?_
        obtain ⟨e, he, rfl⟩ := List.mem_map.1 hw
        obtain ⟨j, hj⟩ := List.mem_iff_getElem?.1 he
        refine List.mem_map_of_mem (List.mem_eraseIdx_iff_getElem?.2 ⟨j, ?_, hj⟩)
        rintro rfl
        rw [hentry] at hj
        exact hne (congrArg Prod.fst (Option.some.inj hj).symm)
    · exact ⟨d, home, by rw [if_neg hbd, hd], hw⟩
  refine h.modify (h.coherent.erased hv) hb (block?_erased g b · i v) hread (fun w hw => ?_)
    ((h.ordered b block hb).erase i) rfl (h.balanced b block hb) (h.conditional b block hb)
  refine hread b block hb w ?_
  rcases List.mem_append.1 hw with hw | hw
  · obtain ⟨e, he, hw⟩ := List.mem_flatMap.1 hw
    exact List.mem_append_left _ (List.mem_flatMap.2 ⟨e, (List.eraseIdx_sublist _ _).subset he, hw⟩)
  · exact List.mem_append_right _ hw

/-! ## Blocks, parameters and branches -/

theorem Tidy.addBlock (h : g.Tidy) : g.addBlock.1.Tidy := by
  have hforth : ∀ b block, g.block? b = some block → g.addBlock.1.block? b = some block := by
    intro b block hb
    have hlt := lt_size_of_block? hb
    rw [block?_addBlock, if_neg (by omega), hb]
  have hcases : ∀ b block, g.addBlock.1.block? b = some block → block = .empty
      ∨ g.block? b = some block := by
    intro b block hb
    rw [block?_addBlock] at hb
    split at hb
    · exact .inl (Option.some.inj hb).symm
    · exact .inr hb
  have hvars : g.boundVars ⊆ g.addBlock.1.boundVars :=
    boundVars_subset_of_blocks fun b block hb => ⟨block, hforth b block hb, List.Subset.refl _⟩
  refine ⟨h.coherent.addBlock, fun b block hb => ?_, fun b block hb => ?_, fun b block hb => ?_,
    fun b block hb => ?_⟩
  all_goals rcases hcases b block hb with rfl | hb
  · nofun
  · exact fun v hv => hvars (h.bound b block hb v hv)
  · exact ⟨nofun, .nil⟩
  · exact h.ordered b block hb
  · nofun
  · exact fun br hbr => (h.balanced b block hb br hbr).of_blocks fun c other hc =>
      ⟨other, hforth c other hc, rfl⟩
  · nofun
  · exact h.conditional b block hb

/-- A new parameter is read nowhere yet, and a default that is bound makes nothing read that is
not. -/
theorem Tidy.withParam (h : g.Tidy) {b : BlockId} {block : Block} {position : Nat}
    {default : Operand} (ty : Ty) (hb : g.block? b = some block)
    (hle : position ≤ block.params.length)
    (hdefault : ∀ v, default.var? = some v → g.isDefined v = true) :
    (g.withParam b position ty default).Tidy := by
  have hvars : g.boundVars ⊆ (g.withParam b position ty default).boundVars :=
    boundVars_subset_withParam hb hle
  refine ⟨h.coherent.withParam hb hle ty default, fun c other' hc => ?_, fun c other' hc => ?_,
    fun c other' hc => ?_, fun c other' hc => ?_⟩
  all_goals obtain ⟨other, hother, hbody, -, hbranches⟩ := exists_block_of_withParam hc
  · intro v hv
    rw [Block.uses, hbody, hbranches] at hv
    rcases List.mem_append.1 hv with hv | hv
    · exact hvars (h.bound c other hother v (List.mem_append_left _ hv))
    · obtain ⟨br', hbr', hv⟩ := List.mem_flatMap.1 hv
      obtain ⟨br, hbr, rfl⟩ := List.mem_map.1 hbr'
      -- a branch reads what it has read, or the default
      rcases Branch.uses_withArgument hv with hv | hv
      · exact hvars (h.bound c other hother v
          (List.mem_append_right _ (List.mem_flatMap.2 ⟨br, hbr, hv⟩)))
      · exact hvars ((h.coherent.isDefined_iff v).1 (hdefault v hv))
  · have hordered := h.ordered c other hother
    exact ⟨hbody ▸ hordered.itself, hbody ▸ hordered.later⟩
  · intro br' hbr'
    rw [hbranches] at hbr'
    obtain ⟨br, hbr, rfl⟩ := List.mem_map.1 hbr'
    exact (h.balanced c other hother br hbr).withParam hb hle
  · intro br' hbr'
    rw [hbranches, ← List.map_dropLast] at hbr'
    obtain ⟨br, hbr, rfl⟩ := List.mem_map.1 hbr'
    rw [Branch.condition_withArgument]
    exact h.conditional c other hother br hbr

/-- A branch is added only behind branches that may not be taken. -/
theorem Tidy.withBranch (h : g.Tidy) {b : BlockId} {block : Block} {br : Branch}
    (hb : g.block? b = some block) (hopen : block.isClosed = false)
    (htakes : g.Takes br.target br.args.length) (huses : ∀ v ∈ br.uses, g.isDefined v = true) :
    (g.modifyBlock b fun block => { block with branches := block.branches ++ [br] }).Tidy := by
  have hvars : g.boundVars
      ⊆ (g.modifyBlock b fun block => { block with
        branches := block.branches ++ [br] }).boundVars := by
    refine boundVars_subset_of_blocks fun c other hc => ?_
    rw [block?_modifyBlock, hc]
    by_cases hbc : b = c
    · exact ⟨_, if_pos hbc, List.Subset.refl _⟩
    · exact ⟨other, if_neg hbc, List.Subset.refl _⟩
  refine h.modify (h.coherent.modifyBlock b (fun _ => rfl) fun _ => rfl) hb
    (block?_modifyBlock g b · _) (fun c other hc v hv => hvars (h.bound c other hc v hv)) ?_
    ⟨(h.ordered b block hb).itself, (h.ordered b block hb).later⟩ rfl ?_ ?_
  · intro v hv
    rw [Block.uses, List.flatMap_append, ← List.append_assoc] at hv
    rcases List.mem_append.1 hv with hv | hv
    · exact hvars (h.bound b block hb v hv)
    · exact hvars ((h.coherent.isDefined_iff v).1 (huses v (by simpa using hv)))
  · intro br' hbr'
    rcases List.mem_append.1 hbr' with hbr' | hbr'
    · exact h.balanced b block hb br' hbr'
    · exact List.mem_singleton.1 hbr' ▸ htakes
  · intro br' hbr'
    rw [List.dropLast_concat] at hbr'
    -- the last of the old branches may not be taken, because the block is not closed
    rcases List.eq_nil_or_concat block.branches with hnil | ⟨front, last, hfront⟩
    · rw [hnil] at hbr'
      cases hbr'
    · rw [List.concat_eq_append] at hfront
      have hconditional := h.conditional b block hb
      rw [hfront, List.dropLast_concat] at hconditional
      rw [hfront] at hbr'
      rcases List.mem_append.1 hbr' with hbr' | hbr'
      · exact hconditional br' hbr'
      · rw [Block.isClosed, hfront, List.getLast?_concat] at hopen
        rw [List.mem_singleton.1 hbr']
        intro hnone
        simp [Branch.isConditional, hnone] at hopen

/-! ## Operands

A replacement goes through all operands and collects what it puts in; only at the end it is refused
if that holds a variable. So a step in between says what it answers under the condition that it has
put in none. -/

/-- The step adds to what was put in, and `P` holds of its answer unless it has put in a
variable. -/
def Honest {τ α : Type} (x : StateT (List Operand) (StateM τ) α) (P : α → Prop) : Prop :=
  ∀ r t, ∃ made, ((x.run r).run t).1.2 = r ++ made
    ∧ (made.any Operand.isVar = false → P ((x.run r).run t).1.1)

namespace Honest

variable {τ α β γ : Type}

theorem pure {a : α} {P : α → Prop} (h : P a) :
    Honest (Pure.pure a : StateT (List Operand) (StateM τ) α) P :=
  fun r _ => ⟨[], (List.append_nil r).symm, fun _ => h⟩

theorem bind {x : StateT (List Operand) (StateM τ) α} {f : α → StateT (List Operand) (StateM τ) β}
    {P : α → Prop} {Q : β → Prop} (hx : Honest x P) (hf : ∀ a, Honest (f a) fun b => P a → Q b) :
    Honest (x >>= f) Q := by
  intro r t
  obtain ⟨made, hmade, hP⟩ := hx r t
  obtain ⟨made', hmade', hQ⟩ := hf ((x.run r).run t).1.1 ((x.run r).run t).1.2 ((x.run r).run t).2
  refine ⟨made ++ made', ?_, fun hnone => ?_⟩
  · rw [← List.append_assoc, ← hmade]
    exact hmade'
  · rw [List.any_append, Bool.or_eq_false_iff] at hnone
    exact hQ hnone.2 (hP hnone.1)

/-- A list of steps that each keep a part of their element keeps the list of parts. -/
theorem mapM {f : α → StateT (List Operand) (StateM τ) β} {p : α → γ} {q : β → γ}
    (h : ∀ a, Honest (f a) fun b => q b = p a) (l : List α) :
    Honest (l.mapM f) fun l' => l'.map q = l.map p := by
  induction l with
  | nil => exact .pure rfl
  | cons a l ih =>
    rw [List.mapM_cons]
    refine .bind (h a) fun b => .bind ih fun l' => .pure fun hl' hb => ?_
    rw [List.map_cons, List.map_cons, hb, hl']

end Honest

variable {τ : Type} {f : Operand → StateM τ (Option Operand)}

/-- What replacing an operand answers, puts in and remembers. -/
theorem run_replaceOperand {op : Operand} (hop : op.var? = none) (r : List Operand) {t t' : τ}
    {found : Option Operand} (hf : (f op).run t = (found, t')) :
    ((replaceOperand f op).run r).run t = ((found.getD op, r ++ found.toList), t') := by
  -- as a result of a run the pair is what the rest of the step is bound to
  replace hf := hf.trans (rfl : _ = (Pure.pure (found, t') : Id _))
  cases op with
  | var v => cases hop
  | _ =>
    unfold replaceOperand
    rw [StateT.run_bind, StateT.run_bind, StateT.run_monadLift, monadLift_self]
    cases found with
    | none =>
      simp only [StateT.run_bind, StateT.run_pure, hf, pure_bind, Option.toList, List.append_nil]
      rfl
    | some new =>
      simp only [StateT.run_bind, StateT.run_pure, hf, pure_bind]
      rfl

/-- An operand is the same variable as before, or none as before. -/
theorem honest_replaceOperand (op : Operand) :
    Honest (replaceOperand f op) fun op' => op'.var? = op.var? := by
  cases hop : op.var? with
  | some v =>
    have hvar : op = .var v := by
      cases op <;> simp_all [Operand.var?]
    rw [hvar]
    exact .pure rfl
  | none =>
    intro r t
    rcases hf : (f op).run t with ⟨_ | new, t'⟩
    · rw [run_replaceOperand hop r hf]
      exact ⟨[], rfl, fun _ => hop⟩
    · rw [run_replaceOperand hop r hf]
      exact ⟨[new], rfl, fun hnone => by simpa [Operand.isVar] using hnone⟩

theorem uses_of_operands {e e' : Operation}
    (h : e'.operands.map Operand.var? = e.operands.map Operand.var?) : e'.uses = e.uses := by
  have hid := congrArg (List.filterMap id) h
  simpa [List.filterMap_map, Operation.uses] using hid

theorem honest_mapM_operation (e : Operation) :
    Honest (e.mapM (replaceOperand f)) fun e' => e'.uses = e.uses := by
  cases e with
  | call callee args =>
    refine .bind (honest_replaceOperand callee) fun callee' => .bind
      (.mapM honest_replaceOperand args)
      fun args' => .pure fun hargs hcallee => uses_of_operands ?_
    rw [Operation.operands, Operation.operands, List.map_cons, List.map_cons, hcallee, hargs]
  | operand op =>
    refine .bind (honest_replaceOperand op) fun op' => .pure fun hop => uses_of_operands ?_
    rw [Operation.operands, Operation.operands, List.map_cons, List.map_cons, hop]

/-- A replacement that puts in no variable leaves what a block binds and reads, and its exits. -/
theorem honest_mapOperandsM (block : Block) :
    Honest (block.mapOperandsM (replaceOperand f)) fun block' => block'.outline
      = block.outline := by
  unfold Block.mapOperandsM
  refine .bind (P := fun body => body.map (fun e => (e.1, e.2.uses)) = block.readings)
    (.mapM (fun e =>
      .bind (honest_mapM_operation e.2.operation) fun e' => .pure fun he => ?_) block.body)
    fun body => .bind (P := fun branches => branches.map
        (fun br : Branch => (br.target, br.condition, br.args.length, br.uses)) = block.exits)
      (.mapM (fun br => .bind (.mapM honest_replaceOperand br.args) fun args =>
        .pure fun hargs => ?_)
        block.branches) fun branches => .pure fun hbranches hbody => ?_
  · exact congrArg (Prod.mk e.1) he
  · have hlength := congrArg List.length hargs
    rw [List.length_map, List.length_map] at hlength
    have huses := congrArg (List.filterMap id) hargs
    rw [List.filterMap_map, List.filterMap_map, Function.id_comp] at huses
    simp only [Branch.uses, huses, hlength]
  · rw [Block.outline, Block.outline, ← hbranches, ← hbody]
    rfl

theorem Tidy.replaced (h : g.Tidy) {t t' : τ} {n : Nat}
    (hreplace : (g.replaceOperandsM f).run t = (.ok (g', n), t')) : g'.Tidy := by
  have hcoherent := h.coherent.replaceOperandsM hreplace
  have hlist :=
    Honest.mapM honest_mapOperandsM (f := Block.mapOperandsM (replaceOperand f)) g.blocks.toList
      [] t
  rcases hrun : ((g.blocks.toList.mapM (Block.mapOperandsM (replaceOperand f))).run []).run t with
    ⟨⟨blocks, made⟩, t₁⟩
  rw [hrun] at hlist
  obtain ⟨_, rfl, hblocks⟩ := hlist
  -- as a result of a run the pair is what the rest of the step is bound to
  replace hrun := hrun.trans (rfl : _ = (Pure.pure ((blocks, made), t₁) : Id _))
  rw [replaceOperandsM, StateT.run_bind, hrun, pure_bind] at hreplace
  dsimp only at hreplace
  by_cases hvar : made.any Operand.isVar = true
  · rw [if_pos hvar] at hreplace
    cases hreplace
  · rw [if_neg hvar] at hreplace
    cases hreplace
    refine h.of_outline hcoherent fun b => ?_
    have hb := congrArg (fun l : List _ => l[b.index]?) (hblocks (Bool.eq_false_iff.2 hvar))
    rw [List.getElem?_map, List.getElem?_map, ← List.getElem?_toArray] at hb
    rwa [Array.getElem?_toList] at hb

theorem Tidy.routed (h : g.Tidy) (hook : HookId) : (g.routeCalls (.const (.hook hook))).1.Tidy :=
  h.of_outline (h.coherent.routeCalls _) (g.sameOutline_routeCalls hook)

/-! ## All edits -/

/-- Every change keeps a graph tidy. -/
theorem Tidy.change (h : g.Tidy) (hchange : Change g g' new) : g'.Tidy := by
  cases hchange with
  | noted lines => exact ⟨h.coherent, h.bound, h.ordered, h.balanced, h.conditional⟩
  | block => exact h.addBlock
  | param ty hb hle hdefault => exact h.withParam ty hb hle hdefault
  | statement hb hle hcheck => exact h.inserted hb hle hcheck
  | set hv hcheck => exact h.withStatement hv hcheck
  | delete hv hunused => exact h.erased hv hunused
  | operands hreplace => exact h.replaced hreplace
  | routed hook => exact h.routed hook
  | branch hb hopen htakes huses => exact h.withBranch hb hopen htakes huses

theorem Tidy.editAll (h : g.Tidy) (es : List Edit) : (editAll g es).Tidy := by
  induction es generalizing g with
  | nil => exact h
  | cons e es ih => exact ih (e.apply_keeps h.coherent h fun _ _ hchange => h.change hchange)

/-! ## Where edits begin -/

theorem tidy_empty : Graph.empty.Tidy := by
  have hblock : ∀ b block, Graph.empty.block? b = some block → block = .empty := by
    rintro ⟨_ | n⟩ block hb
    · exact (Option.some.inj hb).symm
    · cases hb
  refine ⟨coherent_empty, fun b block hb => ?_, fun b block hb => ?_, fun b block hb => ?_,
    fun b block hb => ?_⟩
  all_goals obtain rfl := hblock b block hb
  · nofun
  · exact ⟨nofun, .nil⟩
  · nofun
  · nofun

/-- A graph in order, each of whose blocks is reached, is tidy. -/
theorem WellFormed.tidy (h : g.WellFormed) (hg : g.Coherent)
    (hreached : ∀ b, b.index < g.blocks.size → b ∈ g.reachable) : g.Tidy where
  coherent := hg
  bound := h.bound
  ordered b block hb := by
    obtain ⟨before, hw, hfirst⟩ :=
      ((mem_reachable g b).1 (hreached b (lt_size_of_block? hb))).2.exists_first
    -- a walk that arrives for the first time has not bound what the block binds
    have hearlier : ∀ (i j : Nat) (e l : Variable × Statement), block.body[i]? = some e →
        block.body[j]? = some l → l.1 ∈ e.2.uses → j < i := by
      rintro i j ⟨w, s⟩ ⟨v, s'⟩ hi hj hv
      have hrow : (g.row (.body b))[j]? = some v := by
        rw [row_body_of_block? hb, Block.bodyVars, List.getElem?_map, hj]
        rfl
      have hsite := (hg v (.body b) j).2 hrow
      rcases h.statement b block before hb hw i w s hi v hv with hin | hin
      · exact absurd ((hg.mem_boundIn_iff_of_site hsite before).1 hin) hfirst
      · rcases List.mem_append.1 hin with hin | hin
        · obtain ⟨k, hk⟩ := List.mem_iff_getElem?.1 hin
          have hparam : (g.row (.params b))[k]? = some v := by rw [row_params_of_block? hb, hk]
          cases (Agrees.unique hg hparam hrow).1
        · obtain ⟨k, hk⟩ := List.mem_iff_getElem?.1 hin
          rw [List.getElem?_take] at hk
          split at hk
          · next hlt =>
            have hrow' : (g.row (.body b))[k]? = some v := by rw [row_body_of_block? hb, hk]
            exact (Agrees.unique hg hrow hrow').2 ▸ hlt
          · cases hk
    refine ⟨fun e he hread => ?_, List.pairwise_iff_getElem.2 fun i j hi hj hij hread => ?_⟩
    · obtain ⟨i, hi⟩ := List.mem_iff_getElem?.1 he
      exact Nat.lt_irrefl _ (hearlier i i e e hi hi hread)
    · have hlt := hearlier i j _ _ (List.getElem?_eq_getElem hi) (List.getElem?_eq_getElem hj) hread
      omega
  balanced := h.balanced
  conditional b block hb := by
    obtain ⟨front, last, hbranches, -, hfront⟩ := h.ends b block hb
    rw [hbranches, List.dropLast_concat]
    exact hfront

/-- The graphs that a caller begins with: new ones and lowered ones. -/
inductive Initial : Graph → Prop
  | empty : Initial .empty
  | ofProvenance (p : Provenance) : Initial (.ofProvenance p)
  | emptyLike (g : Graph) : Initial g.emptyLike
  | lowered {d : Source.Function} {file : String} {g : Graph} :
    lowerFunction d file = .ok g → Initial g
  | lower {p : Provenance} {g : Graph} : Interpose.lower p = .ok g → Initial g

theorem Initial.tidy (h : Initial g) : g.Tidy := by
  have hlowered : ∀ {d file c} (p : Option Provenance), Chart.Lowers d file c →
      (c.marked p).graph.Tidy :=
    fun p hl => (hl.wellFormed p).tidy hl.continues.1.sound.marked.coherent (hl.reachable p)
  cases h with
  | empty => exact tidy_empty
  | ofProvenance p =>
    exact ⟨coherent_empty, tidy_empty.bound, tidy_empty.ordered, tidy_empty.balanced,
      tidy_empty.conditional⟩
  | emptyLike g => exact ⟨coherent_empty, tidy_empty.bound, tidy_empty.ordered, tidy_empty.balanced,
      tidy_empty.conditional⟩
  | @lowered d file g hlower =>
    obtain ⟨c, hl⟩ := Chart.exists_lowers d file
    obtain rfl := Except.ok.inj (hl.yields.symm.trans hlower)
    exact ⟨(hlowered none hl).coherent, (hlowered none hl).bound, (hlowered none hl).ordered,
      (hlowered none hl).balanced, (hlowered none hl).conditional⟩
  | @lower p g hlower =>
    obtain ⟨c, hl⟩ := Chart.exists_lowers p.definition p.file
    rw [Interpose.lower, hl.yields] at hlower
    obtain rfl := Except.ok.inj hlower
    exact hlowered (some p) hl

/-- **Direct edits keep a graph tidy.** From a new or a lowered graph, whatever edits are called and
whichever of them are refused: everything that is read is bound, no statement reads what it or a
later one of its block binds, every branch goes to a block and passes one argument for each of its
parameters, and only the last branch of a block is always taken. -/
theorem edits_keep_tidy (h : Initial g) (es : List Edit) : (editAll g es).Tidy := h.tidy.editAll es

/-- The edits that make the loop through the entry, with four between them that are refused: a read
of a variable that does not exist, the removal of a parameter and of a variable that is read, and a
branch behind the one that is always taken. -/
def callLoopEdits : List Edit := [
  .addParam .entry .any,
  .pushTo .entry (.plain (.operand (.var ⟨7⟩))),
  .pushTo .entry (.plain (.call (.var ⟨0⟩) [])),
  .delete ⟨0⟩,
  .addBlock,
  .branchUnless .entry ⟨1⟩ [] ⟨1⟩,
  .branchTo .entry .entry [.var ⟨1⟩],
  .delete ⟨1⟩,
  .leaveWith .entry (.const .nothing),
  .leaveWith ⟨1⟩ (.var ⟨1⟩)]

theorem tidy_callLoop : Initial .empty ∧ editAll .empty callLoopEdits = callLoop
    ∧ (editAll .empty callLoopEdits).Tidy :=
  ⟨.empty, by cbv, edits_keep_tidy .empty callLoopEdits⟩

end Graph

end Interpose
