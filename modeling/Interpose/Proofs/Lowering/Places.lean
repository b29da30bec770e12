import Interpose.Proofs.Lowering.Total
import Interpose.Proofs.Run.Unbounded

/-!
# Places of a chart in the finished graph

The graph of a chart *grows* into the finished one: a block that is closed stays as it is, and an
open one only gets longer. So every place where something was drafted can be found again in the
finished graph, and a run that arrives there does next what was drafted next. This module says for
each step of drafting what that is.
-/

set_option autoImplicit false

namespace Interpose

variable {σ : Type}

/-! ## Growing -/

/-- The block is the other one, or was open and has got longer. -/
structure Block.Grows (block block' : Block) : Prop where
  params : block'.params = block.params
  body : block.body <+: block'.body
  closed : block.branches ≠ [] → block' = block

theorem Block.Grows.refl (block : Block) : block.Grows block :=
  ⟨rfl, List.prefix_refl _, fun _ => rfl⟩

/-- All blocks are there still, and have grown. -/
def Graph.Grows (g g' : Graph) : Prop :=
  ∀ b block, g.block? b = some block → ∃ block', g'.block? b = some block' ∧ block.Grows block'

theorem Graph.Grows.refl (g : Graph) : g.Grows g := fun _ block hb => ⟨block, hb, .refl block⟩

theorem Graph.Grows.trans {g g' g'' : Graph} (h : g.Grows g') (h' : g'.Grows g'') :
    g.Grows g'' := by
  intro b block hb
  obtain ⟨block', hb', hgrows⟩ := h b block hb
  obtain ⟨block'', hb'', hgrows'⟩ := h' b block' hb'
  refine ⟨block'', hb'', hgrows'.params.trans hgrows.params, hgrows.body.trans hgrows'.body,
    fun hne => ?_⟩
  have hsame := hgrows.closed hne
  subst hsame
  exact hgrows'.closed hne

/-- A closed block is found again as it is. -/
theorem Graph.Grows.block? {g g' : Graph} (h : g.Grows g') {b : BlockId} {block : Block}
    (hb : g.block? b = some block) (hne : block.branches ≠ []) : g'.block? b = some block := by
  obtain ⟨block', hb', hgrows⟩ := h b block hb
  rw [hb', hgrows.closed hne]

namespace Chart

variable {c c' : Chart} {o o' : List BlockId} {b : BlockId} {block : Block}

/-- What happens in open and new blocks lets the graph grow. -/
theorem Advances.graph (h : Advances o c o' c') : c.graph.Grows c'.graph := by
  intro b block hb
  by_cases ho : b ∈ o
  · obtain ⟨block', hb', hparams, hbody⟩ := h.grows b block ho hb
    obtain ⟨bare, hbare, hempty⟩ := h.start b ho
    cases hb.symm.trans hbare
    exact ⟨block', hb', hparams, hbody, fun hne => absurd hempty hne⟩
  · exact ⟨block, h.frame b block ho hb, .refl block⟩

theorem Joinable.graph {edges : List Edge} (h : c.Joinable c' edges) {live : Names} :
    c'.graph.Grows (c'.joinedAll edges live).graph := by
  by_cases hne : edges = []
  · subst hne
    exact .refl _
  · rw [joinedAll_of_ne hne]
    exact ((meets_join live hne h.nodup h.departs).advances h.sound).graph

/-- While the first arm of a fork is lowered, the second one is not begun. -/
theorem Continues.block?_falseBlock {v : Variable} (hready : c.Ready) (hv : c.Here c.block v)
    (h : ((c.forked v).moved c.trueBlock c.env false).Continues c') :
    c'.graph.block? c.falseBlock = some .empty := by
  have hfork := (hready.fork hv).2
  refine h.advances.of_moved.frame _ _ (fun hmem => ?_) hfork.onFalse
  exact hfork.distinct (List.mem_singleton.1 hmem).symm

/-- While the second arm is lowered, the end of the first one stays as it is. -/
theorem Continues.block?_end {v : Variable} {env : Bindings} {c₂ : Chart} (hready : c.Ready)
    (hv : c.Here c.block v) (h : ((c.forked v).moved c.trueBlock c.env false).Continues c')
    (h' : (c'.moved c.falseBlock env false).Continues c₂) (hopen : c'.closed = false)
    (hb : c'.graph.block? c'.block = some block) : c₂.graph.block? c'.block = some block := by
  refine h'.advances.of_moved.frame _ _ (fun hmem => ?_) hb
  exact (armTrue hready hv h).apart hopen (List.mem_singleton.1 hmem ▸ List.mem_cons_self)

/-! ## The place where drafting goes on -/

/-- How many statements stand before the next one. -/
def position (c : Chart) : Nat := ((c.graph.block? c.block).getD .empty).body.length

theorem position_eq (hb : c.graph.block? c.block = some block) :
    c.position = block.body.length := by
  rw [position, hb]
  rfl

/-- The run of a finished graph from the place where drafting goes on. -/
noncomputable def goOn (c : Chart) (env : Surroundings σ) (g : Graph) (fuel : Option Nat)
    (m : Registers) : Run σ Value :=
  Strict.resume env g fuel c.block c.position m

variable {env : Surroundings σ} {g : Graph} {fuel : Option Nat} {m : Registers}

/-- In a block without statements drafting goes on where the block begins. -/
theorem goOn_eq_resume (hb : c.graph.block? c.block = some block) (hbody : block.body = []) :
    c.goOn env g fuel m = Strict.resume env g fuel c.block 0 m := by
  rw [goOn, position_eq hb, hbody]
  rfl

/-- A statement that is emitted is run next. -/
theorem goOn_emitted (hbare : c.Bare c.block) {s : Statement} {line : Nat}
    (hg : (c.emitted s line).graph.Grows g) : c.goOn env g fuel m
      = Strict.operation env m s.operation >>= fun x =>
        (c.emitted s line).goOn env g fuel (m.assign c.graph.fresh x) := by
  obtain ⟨block, hb, -⟩ := hbare
  have hself := (block?_emitted hb s line c.block).trans (if_pos rfl)
  obtain ⟨block', hb', hgrows⟩ := hg _ _ hself
  have hnext : block'.body[block.body.length]?
      = some (c.graph.fresh, Drafting.emitted c.toDraft s line) := by
    obtain ⟨more, hmore⟩ := hgrows.body
    rw [← hmore]
    simp
  have hposition : (c.emitted s line).position = block.body.length + 1 := by
    rw [position_eq (c := c.emitted s line) hself]
    simp
  rw [goOn, position_eq hb, Strict.resume_statement hb' hnext]
  unfold goOn
  rw [hposition]
  rfl

/-- At the end of a closed block its branches are tried. -/
theorem resume_closed (hg : c.graph.Grows g) (hb : c.graph.block? b = some block)
    (hne : block.branches ≠ []) :
    Strict.resume env g fuel b block.body.length m
      = Strict.takeFirst env g b m block.branches
        >>= Strict.Exit.follow (Strict.runFor env g fuel) :=
  Strict.resume_end (hg.block? hb hne)

/-! ## Branches -/

/-- A branch without arguments enters its block with the registers as they are. -/
theorem takeBranch_bare {br : Branch} {t : BlockId} {next : Block} (ht : br.target = .block t)
    (hargs : br.args = []) (hnext : g.block? t = some next) :
    Strict.takeBranch env g m br = pure (.enter t m) := by
  have hbind : m.bind next.paramVars [] = m := by
    cases next.paramVars <;> rfl
  rw [Strict.takeBranch_block ht hnext, hargs, Strict.operands, pure_bind, hbind]

/-- A return ends the run with the value of its operand. -/
theorem goOn_leave (hbare : c.Bare c.block) {op : Operand}
    (hg : (c.branched c.block [.leave op]).graph.Grows g) :
    c.goOn env g fuel m = Strict.operand env m op := by
  obtain ⟨block, hb, hempty⟩ := hbare
  have hself : (c.branched c.block [.leave op]).graph.block? c.block
      = some { block with branches := [.leave op] } := by
    have hbranched := Graph.block?_branched c.graph c.block c.block [.leave op]
    rw [if_pos rfl, hb, Option.map_some, hempty] at hbranched
    exact hbranched
  rw [Chart.goOn, position_eq hb]
  refine (resume_closed hg hself (List.cons_ne_nil _ _)).trans ?_
  rw [Strict.takeFirst_always rfl, Strict.takeBranch, Branch.leave, Strict.operands,
    Strict.operands]
  simp only [bind_assoc, pure_bind]
  exact bind_pure _

/-- **After a fork** the run goes on in the block that the condition leads to. -/
theorem Forks.goOn {v : Variable} {x : Value} (h : c.Forks v c') (hg : c'.graph.Grows g)
    (hbare : c.Bare c.block) (hx : m v = some x) :
    c.goOn env g fuel m = Run.ofTrap x.asBool >>= fun holds =>
      Strict.runFor env g fuel (if holds then c.trueBlock else c.falseBlock) m := by
  obtain ⟨block, hb, -⟩ := hbare
  have hsource := h.source block hb
  obtain ⟨onTrue, htrue, -⟩ := hg _ _ h.onTrue
  obtain ⟨onFalse, hfalse, -⟩ := hg _ _ h.onFalse
  rw [Chart.goOn, position_eq hb]
  refine (resume_closed hg hsource (List.cons_ne_nil _ _)).trans ?_
  unfold forkBranches
  rw [Strict.takeFirst_unless rfl hx, bind_assoc]
  congr 1
  funext holds
  cases holds
  · rw [if_neg Bool.false_ne_true, if_neg Bool.false_ne_true, takeBranch_bare rfl rfl hfalse,
      pure_bind]
    rfl
  · rw [if_pos rfl, if_pos rfl, Strict.takeFirst_always rfl, takeBranch_bare rfl rfl htrue,
      pure_bind]
    rfl

end Chart

end Interpose
