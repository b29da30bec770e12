import Interpose.Lowering.Function
import Interpose.Proofs.Accepted
import Interpose.Proofs.Graph.Edits

/-!
# What one drafting step does

A drafting step takes a draft to a draft and answers something, or it is refused. For every step
there is one lemma here that says *exactly when* it is accepted and what the next draft is, and so a
composed step is taken apart, or put together, one step at a time.
-/

set_option autoImplicit false

namespace Interpose

namespace Drafting

variable {α β : Type} {d d' : Draft} {u : Unit}

/-- The step is accepted: it takes the draft `d` to `d'` and answers `a`. -/
def Yields (x : Drafting α) (d : Draft) (a : α) (d' : Draft) : Prop := x.run d = .ok (a, d')

/-! ## Sequences -/

theorem yields_pure {a b : α} : Yields (pure a) d b d' ↔ b = a ∧ d' = d := by
  have hrun : (pure a : Drafting α).run d = .ok (a, d) := rfl
  rw [Yields, hrun]
  constructor
  · intro h
    cases h
    exact ⟨rfl, rfl⟩
  · rintro ⟨rfl, rfl⟩
    rfl

theorem yields_bind {x : Drafting α} {f : α → Drafting β} {b : β} :
    Yields (x >>= f) d b d' ↔ ∃ a d₁, Yields x d a d₁ ∧ Yields (f a) d₁ b d' := by
  have hrun : (x >>= f).run d = x.run d >>= fun p => (f p.1).run p.2 := rfl
  rw [Yields, hrun, bind_eq_ok, Prod.exists]
  rfl

theorem yields_get {e : Draft} : Yields get d e d' ↔ e = d ∧ d' = d := yields_pure

theorem yields_modify {f : Draft → Draft} : Yields (modify f) d u d' ↔ d' = f d := by
  have hrun : (modify f : Drafting Unit).run d = .ok ((), f d) := rfl
  rw [Yields, hrun]
  constructor
  · intro h
    cases h
    rfl
  · rintro rfl
    rfl

/-- A step that reads off a changed graph. -/
theorem yields_change {r : Except GraphError (Graph × α)} {a : α} :
    Yields (do let (graph, v) ← r; set { d with graph }; return v) d a d'
      ↔ ∃ graph, r = .ok (graph, a) ∧ d' = { d with graph } := by
  rw [Yields]
  rcases r with e | ⟨graph, v⟩
  · exact ⟨nofun, nofun⟩
  · constructor
    · intro h
      cases h
      exact ⟨graph, rfl, rfl⟩
    · rintro ⟨graph', h, rfl⟩
      cases h
      rfl

/-! ## Blocks, statements and branches -/

theorem yields_openBlock {b : BlockId} : Yields openBlock d b d'
    ↔ b = ⟨d.graph.blocks.size⟩ ∧ d' = { d with graph := d.graph.addBlock.1 } := by
  have hrun : openBlock.run d
      = .ok (⟨d.graph.blocks.size⟩, { d with graph := d.graph.addBlock.1 }) := rfl
  rw [Yields, hrun]
  constructor
  · intro h
    cases h
    exact ⟨rfl, rfl⟩
  · rintro ⟨rfl, rfl⟩
    rfl

theorem yields_param {b : BlockId} {v : Variable} : Yields (param b) d v d'
    ↔ ∃ block, d.graph.block? b = some block ∧ v = d.graph.fresh
      ∧ d'
        = { d with graph := d.graph.withParam b block.params.length .any (.const .nothing) } := by
  have hstep : Yields (param b) d v d' ↔ ∃ graph, d.graph.addParam b .any = .ok (graph, v)
      ∧ d' = { d with graph } := yields_change
  rw [hstep]
  simp only [Graph.addParam, Graph.addParamWith_eq_ok]
  constructor
  · rintro ⟨graph, ⟨block, hb, -, rfl, rfl⟩, rfl⟩
    exact ⟨block, hb, rfl, rfl⟩
  · rintro ⟨block, hb, rfl, rfl⟩
    exact ⟨_, ⟨block, hb, Graph.checkOperand_eq_ok.2 nofun, rfl, rfl⟩, rfl⟩

/-- The statement that is emitted: the line becomes a place in the line table. -/
def emitted (d : Draft) (s : Statement) (line : Nat) : Statement :=
  { s with line := (d.graph.internLine ⟨d.file, line⟩).2 }

/-- The graph with a line noted. -/
def noted (d : Draft) (line : Nat) : Graph := (d.graph.internLine ⟨d.file, line⟩).1

/-- The line table is all that a noted line changes. -/
theorem noted_eq (d : Draft) (line : Nat) : ∃ lines, noted d line = { d.graph with lines } := by
  unfold noted Graph.internLine
  split
  · exact ⟨d.graph.lines, rfl⟩
  · exact ⟨_, rfl⟩

theorem yields_emit {s : Statement} {line : Nat} {v : Variable} : Yields (emit s line) d v d'
    ↔ ∃ block, d.graph.block? d.block = some block
      ∧ (noted d line).checkStatement d.block block.body.length (emitted d s line) = .ok ()
      ∧ v = d.graph.fresh
      ∧ d' = { d with
          graph := (noted d line).inserted d.block block.body.length (emitted d s line) } := by
  have hstep : Yields (emit s line) d v d' ↔ ∃ graph,
      (noted d line).pushTo d.block (emitted d s line) = .ok (graph, v) ∧ d' = { d with graph } :=
    yields_change
  obtain ⟨lines, hnoted⟩ := noted_eq d line
  have hblock : (noted d line).block? d.block = d.graph.block? d.block := by
    rw [hnoted]
    rfl
  have hfresh : (noted d line).fresh = d.graph.fresh := by
    rw [hnoted]
    rfl
  rw [hstep]
  simp only [Graph.pushTo_eq_ok, hblock, hfresh]
  constructor
  · rintro ⟨graph, ⟨block, hb, hcheck, rfl, rfl⟩, rfl⟩
    exact ⟨block, hb, hcheck, rfl, rfl⟩
  · rintro ⟨block, hb, hcheck, rfl, rfl⟩
    exact ⟨_, ⟨block, hb, hcheck, rfl, rfl⟩, rfl⟩

/-- A step that only changes the graph, and may be refused. -/
theorem yields_edit {r : Except GraphError Graph} {f : Graph → Draft} :
    Yields (do set (f (← r))) d u d' ↔ ∃ graph, r = .ok graph ∧ d' = f graph := by
  rw [Yields]
  rcases r with e | graph
  · exact ⟨nofun, nofun⟩
  · constructor
    · intro h
      cases h
      exact ⟨graph, rfl, rfl⟩
    · rintro ⟨graph', h, rfl⟩
      cases h
      rfl

theorem yields_branch {b target : BlockId} {args : List Operand} :
    Yields (branch b target args) d u d'
      ↔ ∃ graph, d.graph.addBranch b (.jump target args) = .ok graph ∧ d' = { d with graph } :=
  yields_edit (r := d.graph.branchTo b target args) (f := fun graph => { d with graph })

theorem yields_branchUnless {b target : BlockId} {args : List Operand} {c : Variable} :
    Yields (branchUnless b target args c) d u d'
      ↔ ∃ graph, d.graph.addBranch b ((Branch.jump target args).whenFalse c) = .ok graph
        ∧ d' = { d with graph } :=
  yields_edit (r := d.graph.branchUnless b target args c) (f := fun graph => { d with graph })

theorem yields_leave {value : Operand} : Yields (leave value) d u d'
    ↔ ∃ graph, d.graph.addBranch d.block (.leave value) = .ok graph
      ∧ d' = { d with graph, closed := true } :=
  yields_edit (r := d.graph.leaveWith d.block value)
    (f := fun graph => { d with graph, closed := true })

theorem yields_enter {b : BlockId} {env : Bindings} : Yields (enter b env) d u d'
    ↔ d' = { d with block := b, env, closed := false } := yields_modify

theorem yields_assign {name : String} {op : Operand} : Yields (assign name op) d u d'
    ↔ d' = { d with env := d.env.bind name op } := yields_modify

theorem yields_fork {c : Variable} {bs : BlockId × BlockId} : Yields (fork c) d bs d'
    ↔ ∃ g₁ g₂, bs = (⟨d.graph.blocks.size⟩, ⟨d.graph.addBlock.1.blocks.size⟩)
      ∧ d.graph.addBlock.1.addBlock.1.addBranch d.block ((Branch.jump bs.2 []).whenFalse c) = .ok g₁
      ∧ g₁.addBranch d.block (.jump bs.1 []) = .ok g₂ ∧ d' = { d with graph := g₂ } := by
  unfold fork
  simp only [yields_get, yields_bind, yields_openBlock, yields_branchUnless, yields_branch,
    yields_pure]
  constructor
  · rintro ⟨_, _, ⟨rfl, rfl⟩, _, _, ⟨rfl, rfl⟩, _, _, ⟨rfl, rfl⟩, _, _, ⟨g₁, h₁, rfl⟩, _, _,
      ⟨g₂, h₂, rfl⟩, rfl, rfl⟩
    exact ⟨g₁, g₂, rfl, h₁, h₂, rfl⟩
  · rintro ⟨g₁, g₂, rfl, h₁, h₂, rfl⟩
    exact ⟨_, _, ⟨rfl, rfl⟩, _, _, ⟨rfl, rfl⟩, _, _, ⟨rfl, rfl⟩, (), _, ⟨g₁, h₁, rfl⟩, (), _,
      ⟨g₂, h₂, rfl⟩, rfl, rfl⟩

end Drafting

end Interpose
