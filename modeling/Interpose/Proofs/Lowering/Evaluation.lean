import Interpose.Proofs.Lowering.Pairing

/-!
# Expressions mean what they are lowered to

The value of an expression in the tree is what its operand holds when the graph's run has come to
the end of what the expression was lowered to, and until then both make the same calls. The operand
of a name may be the global itself, which is looked up only when it is used; the globals are the
same then.
-/

set_option autoImplicit false

namespace Interpose

open Source

namespace Pairing

variable {σ : Type} {w : Pairing σ} {c c' : Chart} {m : Registers} {fuel : Option Nat}
  {live bound : Names} {store : Store} {line : Nat}

/-! ## Blocks that are entered -/

/-- A block without statements is entered where drafting goes on in it. -/
theorem Along.place {x : Run σ Value} {block : Block} {k : Nat} (hfuel : w.lag.Allows k fuel)
    (hb : c.graph.block? c.block = some block) (hbody : block.body = [])
    (h : ∀ fuel', Left fuel fuel' → (∀ k', k = k' + 1 → w.lag.Allows k' fuel') →
      w.Along x (w.place c fuel' m)) :
    w.Along x (w.start fuel c.block m) :=
  .enter hfuel fun fuel' hleft hless => by
    have hplace := h fuel' hleft hless
    rw [Pairing.place, Chart.goOn_eq_resume hb hbody] at hplace
    exact hplace

/-- A branch into a join is taken. -/
theorem Along.joins {e : Edge} {edges : List Edge} (look : String → Value)
    (hj : c.Joinable c' edges) (he : e ∈ edges) (hplain : ∀ e ∈ edges, e.env.IsPlain)
    (hg : (c'.joined edges live).graph.Grows w.graph) {br : Branch}
    (ht : br.target = .block c'.next) (hargs : br.args = Edge.arguments edges live e)
    (hfuel : w.lag.Allows w.rounds fuel)
    (hpassed : ∀ n ∈ live, (e.env.passed n).Holds w.globals m (look n))
    (hholds : ∀ n ∈ live, ∀ op, e.env.get? n = some op → op.Holds w.globals m (look n)) {x : Value}
    (hx : (e.value.getD (.const .nothing)).Holds w.globals m x) {y : Run σ Value}
    (h : ∀ m' fuel', Later c'.graph.varCount m fuel m' fuel' →
      (∀ n ∈ live, ∀ op, (c'.joined edges live).env.get? n = some op →
        op.Holds w.globals m' (look n)) →
      (∀ op, Edge.outcome edges live c'.graph.varCount = some op → op.Holds w.globals m' x) →
      w.Along y (w.place (c'.joined edges live) fuel' m')) :
    w.Along y (Strict.takeBranch w.env w.graph m br >>= Strict.Exit.follow (w.start fuel)) := by
  obtain ⟨m', hsame, hnames, hvalue, htake⟩ := enters_join hj he hplain hg hpassed hholds hx
  have hmeets := Chart.meets_join live (List.ne_nil_of_mem he) hj.nodup hj.departs
  have htarget : (c'.joined edges live).graph.block? c'.next = _ := hmeets.block?_target hj.sound
  have hentered : w.Along y (w.start fuel c'.next m') :=
    .place (c := c'.joined edges live) hfuel htarget rfl fun fuel' hleft _ =>
      h m' fuel' ⟨hsame, hleft⟩ hnames hvalue
  refine hentered.right fun s hs => ?_
  rw [Run.bind_apply, htake br s ht hargs hs]
  rfl

/-- A join is gone through from where drafting went on before. -/
theorem Along.join {d : Chart} {value : Option Operand} {edges : List Edge} (look : String → Value)
    (hj : c.Joinable c' edges) (he : d.out value ∈ edges) (hplain : ∀ e ∈ edges, e.env.IsPlain)
    (hg : (c'.joined edges live).graph.Grows w.graph) {block : Block}
    (hd : d.graph.block? d.block = some block) (hb : c'.graph.block? d.block = some block)
    (hfuel : w.lag.Allows w.rounds fuel)
    (hpassed : ∀ n ∈ live, (d.env.passed n).Holds w.globals m (look n))
    (hholds : ∀ n ∈ live, ∀ op, d.env.get? n = some op → op.Holds w.globals m (look n)) {x : Value}
    (hx : (value.getD (.const .nothing)).Holds w.globals m x) {y : Run σ Value}
    (h : ∀ m' fuel', Later c'.graph.varCount m fuel m' fuel' →
      (∀ n ∈ live, ∀ op, (c'.joined edges live).env.get? n = some op →
        op.Holds w.globals m' (look n)) →
      (∀ op, Edge.outcome edges live c'.graph.varCount = some op → op.Holds w.globals m' x) →
      w.Along y (w.place (c'.joined edges live) fuel' m')) : w.Along y (w.place d fuel m) := by
  have hend : w.place d fuel m = _ := (congrArg (Strict.resume w.env w.graph fuel d.block · m)
    (Chart.position_eq hd)).trans (resume_source hj he hg hb)
  rw [hend, Edge.branches_none rfl, Strict.takeFirst_always rfl]
  exact .joins look hj he hplain hg rfl rfl hfuel hpassed hholds hx h

/-! ## Conditions -/

/-- The variable of a condition holds what its operand holds. -/
theorem along_condition {p : Operand} {v : Variable} {x : Value}
    (hl : Chart.LowersCondition line p c v c') (hat : w.At c m fuel live bound store)
    (hp : c.Reads c.block p) (hx : p.Holds w.globals m x) (hg : c'.graph.Grows w.graph)
    {y : Run σ Value} (h : ∀ m' fuel', Later c.graph.varCount m fuel m' fuel' →
      w.At c' m' fuel' live bound store →
      m' v = some x → w.Along y (w.place c' fuel' m')) : w.Along y (w.place c fuel m) := by
  have hready := (hl.computes hat.ready hp).isReady
  -- a constant or a global is first put into a variable of its own
  have hemit : ∀ s : Statement, s.operation = .operand p → (c.emitted s line).Ready →
      (c.emitted s line).graph.Grows w.graph → (∀ m' fuel', Later c.graph.varCount m fuel m' fuel' →
        w.At (c.emitted s line) m' fuel' live bound store → m' c.graph.fresh = some x →
        w.Along y (w.place (c.emitted s line) fuel' m')) → w.Along y (w.place c fuel m) := by
    intro s hs hready hg h
    have hlater : Later c.graph.varCount m fuel (m.assign c.graph.fresh x) fuel :=
      ⟨Registers.sameBelow_assign m x (Nat.le_refl _), .refl fuel⟩
    have hnext := h _ fuel hlater (hat.advance hready (fun _ => rfl) hlater) (if_pos rfl)
    refine hnext.right fun t ht => ?_
    rw [Pairing.place, Chart.goOn_emitted hat.ready.bare hg, hs, bind_operation hx ht]
  cases p with
  | var u =>
    obtain ⟨rfl, rfl⟩ := hl
    exact h m fuel (.refl _ m fuel) hat hx
  | const k =>
    obtain ⟨rfl, rfl⟩ := hl
    exact hemit _ rfl hready hg h
  | global n =>
    obtain ⟨rfl, rfl⟩ := hl
    exact hemit _ rfl hready hg h

/-! ## Arms -/

/-- A fork is gone through to where its arms begin. The second one is drafted from `c₂` on. -/
theorem Along.fork {v : Variable} {x : Value} {c₂ : Chart} {y y' : Run σ Value}
    (hat : w.At c m fuel live bound store) (hv : c.Here c.block v) (hx : m v = some x)
    (hg : (c.forked v).graph.Grows w.graph) (hsecond : c₂.graph.block? c.falseBlock = some .empty)
    (htrue : ∀ fuel', Left fuel fuel' →
      w.Along y (w.place ((c.forked v).moved c.trueBlock c.env false) fuel' m))
    (env : Bindings)
    (hfalse : ∀ fuel', Left fuel fuel' →
      w.Along y' (w.place (c₂.moved c.falseBlock env false) fuel' m)) :
    w.Along (test x >>= fun holds => if holds then y else y') (w.place c fuel m) := by
  have hfork := (hat.ready.fork hv).2
  rw [Pairing.place, hfork.goOn hg hat.ready.bare hx]
  refine .tested _ ?_ ?_
  · have hentered : w.Along y (w.start fuel c.trueBlock m) :=
      .place (c := (c.forked v).moved c.trueBlock c.env false) hat.fuel hfork.onTrue rfl
        fun fuel' hleft _ => htrue fuel' hleft
    exact hentered
  · have hentered : w.Along y' (w.start fuel c.falseBlock m) :=
      .place (c := c₂.moved c.falseBlock env false) hat.fuel hsecond rfl fun fuel' hleft _ =>
        hfalse fuel' hleft
    exact hentered

/-! ## Expressions -/

/-- All names of a list are read here, and one that is not possibly bound is a global of the
table. -/
def Supplies (w : Pairing σ) (names live bound : Names) : Prop :=
  ∀ n ∈ names, n ∈ live ∧ (n ∉ bound → (w.globals n).isSome)

theorem Supplies.mono {names names' : Names} (h : w.Supplies names live bound)
    (hsub : ∀ n ∈ names', n ∈ names) :
    w.Supplies names' live bound := fun n hn => h n (hsub n hn)

/-- The runs are at the end of an expression. -/
theorem At.computed {e : Expr} {op : Operand} {m' : Registers} {fuel' : Option Nat}
    (h : w.At c m fuel live bound store) (hl : Chart.LowersExpr line e c op c') (he : e.IsPlain)
    (hlater : Later c.graph.varCount m fuel m' fuel') : w.At c' m' fuel' live bound store :=
  h.advance (hl.computes h.ready).isReady (hl.get?_env he h.tracks.plain).1 hlater

mutual

/-- **An expression is gone through** to its end, where its operand holds its value. -/
theorem along_expr (hw : w.Keeps) : ∀ {e : Expr} {c c' : Chart} {op : Operand} {m : Registers}
    {fuel : Option Nat} {K : Value → Run σ Value}, Chart.LowersExpr line e c op c' → e.IsPlain →
    c'.graph.Grows w.graph → w.Supplies e.reads live bound → w.At c m fuel live bound store →
    (∀ x m' fuel', Later c.graph.varCount m fuel m' fuel' → op.Holds w.globals m' x →
      w.Along (K x) (w.place c' fuel' m')) →
    w.Along (e.eval w.env bound store >>= K) (w.place c fuel m)
  | .name n, c, c', op, m, fuel, K, hl, _, _, hreads, hat, h => by
    obtain ⟨rfl, rfl⟩ := hl
    obtain ⟨hlive, hglobal⟩ := hreads n (by simp [Expr.reads, Expr.addReads])
    obtain ⟨x, hx, hvalue⟩ := hat.holds.resolve hat.tracks hlive hglobal
    refine (h x m fuel (.refl _ m fuel) hx).left fun s hs => ?_
    rw [Run.bind_apply, Expr.eval, hvalue hs]
  | .lit x, c, c', op, m, fuel, K, hl, _, _, _, hat, h => by
    obtain ⟨rfl, rfl⟩ := hl
    rw [Expr.eval, pure_bind]
    exact h x m fuel (.refl _ m fuel) rfl
  | .call callee args, c, c', op, m, fuel, K, hl, he, hg, hreads, hat, h => by
    obtain ⟨f, c₁, ops, c₂, hf, hops, rfl, rfl⟩ := hl
    have hcallee := hf.computes hat.ready
    have hargs := hops.computes hcallee.isReady
    have hg₂ : c₂.graph.Grows w.graph :=
      (Chart.advances_emitted hargs.isReady.bare _ _).graph.trans hg
    have hg₁ : c₁.graph.Grows w.graph := hargs.advances.graph.trans hg₂
    rw [Expr.eval, bind_assoc]
    refine along_expr hw hf he.1 hg₁ (hreads.mono fun n hn => Expr.mem_reads_call.2 (.inl hn)) hat
      fun x m₁ fuel₁ hlater₁ hx => ?_
    rw [bind_assoc]
    refine along_exprs hw hops he.2 hg₂ (hreads.mono fun n hn => Expr.mem_reads_call.2 (.inr hn))
      (hat.computed hf he.1 hlater₁) fun xs m₂ fuel₂ hlater₂ hxs => ?_
    -- the callee still holds what it held before the arguments
    have hx₂ :=
      hx.sameBelow ((hcallee.reads f List.mem_cons_self).below hcallee.sound) hlater₂.registers
    have hle := hcallee.advances.vars_le
    have hcall : w.Along (w.env.call x xs >>= K) (w.env.call x xs >>= fun y =>
        w.place (c₂.emitted (.plain (.call f ops)) line) fuel₂ (m₂.assign c₂.graph.fresh y)) := by
      apply (hw x xs).next
      intro y
      have hlater : Later c₁.graph.varCount m₂ fuel₂ (m₂.assign c₂.graph.fresh y) fuel₂ :=
        ⟨Registers.sameBelow_assign m₂ y hargs.advances.vars_le, .refl fuel₂⟩
      exact h y _ fuel₂ (hlater₁.trans (hlater₂.trans hlater (Nat.le_refl _)) hle) (if_pos rfl)
    refine hcall.right fun s hs => ?_
    rw [Pairing.place, Chart.goOn_emitted hargs.isReady.bare hg]
    unfold Strict.operation
    simp only [Statement.plain, bind_assoc]
    rw [Run.bind_apply, hx₂.apply hs]
    dsimp only
    rw [bind_operands hxs hs]
  | .choose cond onTrue onFalse, c, c', op, m, fuel, K, hl, he, hg, hreads, hat, h => by
    obtain ⟨p, c₁, v, c₂, x, c₃, y, c₄, hp, hv, hx, hy, rfl, hop⟩ := hl
    obtain ⟨hplain, hplain₁, hplain₂⟩ := he
    have hfirst := hp.computes hat.ready
    obtain ⟨hcond, hhere⟩ := hfirst.condition hv
    have hready := hcond.isReady
    have h₃ := hx.computes (hready.onTrue hhere)
    have hsecond :=
      hready.onFalse hhere (Chart.Continues.armTrue hready hhere h₃.toContinues) h₃.sub
    have h₄ := hy.computes hsecond
    have hjoin := hready.choose hhere h₃ h₄
    have hne : [c₃.out (some x), c₄.out (some y)] ≠ [] := nofun
    have hg₄ : c₄.graph.Grows w.graph := hjoin.graph.trans hg
    have hg₃ : c₃.graph.Grows w.graph := h₄.advances.of_moved.graph.trans hg₄
    have hgf : (c₂.forked v).graph.Grows w.graph := h₃.advances.of_moved.graph.trans hg₃
    have hg₂ : c₂.graph.Grows w.graph := (hready.fork hhere).2.advances.graph.trans hgf
    have hg₁ : c₁.graph.Grows w.graph :=
      (hv.computes hfirst.isReady (hfirst.reads p List.mem_cons_self)).advances.graph.trans hg₂
    rw [Chart.joinedAll_of_ne hne] at hg h
    have htree : (Expr.choose cond onTrue onFalse).eval w.env bound store >>= K
        = cond.eval w.env bound store >>= fun z => test z >>= fun holds =>
          if holds then onTrue.eval w.env bound store >>= K
            else onFalse.eval w.env bound store >>= K := by
      rw [Expr.eval, bind_assoc]
      congr 1
      funext z
      rw [bind_assoc]
      congr 1
      funext holds
      cases holds <;> rfl
    rw [htree]
    refine along_expr hw hp hplain hg₁
      (hreads.mono fun n hn => Expr.mem_reads_choose.2 (.inl hn)) hat
      fun z m₁ fuel₁ hlater₁ hz => ?_
    refine along_condition hv (hat.computed hp hplain hlater₁)
      (hfirst.reads p List.mem_cons_self) hz hg₂
      fun m₂ fuel₂ hlater₂ hat₂ hzv => ?_
    have henv₁ : ∀ n, c₁.env.get? n = c.env.get? n := (hp.get?_env hplain hat.tracks.plain).1
    have henv₂ : ∀ n, c₂.env.get? n = c.env.get? n := fun n => by rw [Chart.env_condition hv, henv₁]
    have hplain₀ : c₂.env.IsPlain :=
      fun n op hget => hat.tracks.plain n op ((henv₂ n).symm.trans hget)
    have henv₃ : ∀ n, c₃.env.get? n = c₂.env.get? n := (hx.get?_env hplain₁ hplain₀).1
    have hplain₃ : c₃.env.IsPlain := fun n op hget => hplain₀ n op ((henv₃ n).symm.trans hget)
    have henv₄ : ∀ n, c₄.env.get? n = c₃.env.get? n := (hy.get?_env hplain₂ hplain₃).1
    have hplain_edges : ∀ e ∈ [c₃.out (some x), c₄.out (some y)], e.env.IsPlain := fun e he => by
      rcases List.mem_cons.1 he with rfl | he
      · exact hplain₃
      · obtain rfl := List.mem_singleton.1 he
        exact fun n op hget => hplain₃ n op ((henv₄ n).symm.trans hget)
    have hle₂ : c.graph.varCount ≤ c₂.graph.varCount := hcond.advances.vars_le
    have hle₄ : c.graph.varCount ≤ c₄.graph.varCount := Nat.le_trans hle₂ hjoin.advances.vars_le
    have hle_fork : c.graph.varCount ≤ (c₂.forked v).graph.varCount :=
      Nat.le_trans hle₂ (hready.fork hhere).2.advances.vars_le
    have hle₃ : c.graph.varCount ≤ c₃.graph.varCount := Nat.le_trans hle_fork h₃.advances.vars_le
    have hlater : Later c.graph.varCount m fuel m₂ fuel₂ :=
      hlater₁.trans hlater₂ hfirst.advances.vars_le
    refine .fork hat₂ hhere hzv hgf (h₃.toContinues.block?_falseBlock hready hhere)
      (fun fuel₃ hleft => ?_) c₃.env
      fun fuel₃ hleft => ?_
    · have hat₃ := hat₂.advance (hready.onTrue hhere) (fun _ => rfl) (.of_left _ m₂ hleft)
      refine along_expr hw hx hplain₁ hg₃
        (hreads.mono fun n hn => Expr.mem_reads_choose.2 (.inr (.inl hn))) hat₃
        fun u m₄ fuel₄ hlater₄ hu => ?_
      obtain ⟨block, hb, -⟩ := h₃.isReady.bare
      have hb₄ := h₃.toContinues.block?_end hready hhere h₄.toContinues h₃.opened hb
      refine .join (Chart.look store) hjoin List.mem_cons_self hplain_edges hg hb hb₄
        (hlater₄.left _ _ hat₃.fuel)
        nofun nofun hu fun m₅ fuel₅ hlater₅ _ hvalue => ?_
      exact h u m₅ fuel₅ (((hlater.leave hleft).trans hlater₄ hle_fork).trans hlater₅ hle₄)
        (hvalue op hop.symm)
    · have hat₃ := hat₂.advance hsecond henv₃ (.of_left _ m₂ hleft)
      refine along_expr hw hy hplain₂ hg₄
        (hreads.mono fun n hn => Expr.mem_reads_choose.2 (.inr (.inr hn))) hat₃
        fun u m₄ fuel₄ hlater₄ hu => ?_
      obtain ⟨block, hb, -⟩ := h₄.isReady.bare
      refine .join (Chart.look store) hjoin
        (List.mem_cons_of_mem _ List.mem_cons_self) hplain_edges hg hb hb
        (hlater₄.left _ _ hat₃.fuel) nofun nofun hu fun m₅ fuel₅ hlater₅ _ hvalue => ?_
      exact h u m₅ fuel₅ (((hlater.leave hleft).trans hlater₄ hle₃).trans hlater₅ hle₄)
        (hvalue op hop.symm)

theorem along_exprs (hw : w.Keeps) :
    ∀ {es : List Expr} {c c' : Chart} {ops : List Operand} {m : Registers}
    {fuel : Option Nat} {K : List Value → Run σ Value}, Chart.LowersExprs line es c ops c' →
    Expr.ArePlain es →
    c'.graph.Grows w.graph → w.Supplies (Expr.addReadsAll es []) live bound →
    w.At c m fuel live bound store →
    (∀ xs m' fuel', Later c.graph.varCount m fuel m' fuel' →
      List.Forall₂ (Operand.Holds w.globals m') ops xs →
      w.Along (K xs) (w.place c' fuel' m')) →
    w.Along (Expr.evalAll w.env bound store es >>= K) (w.place c fuel m)
  | [], c, c', ops, m, fuel, K, hl, _, _, _, hat, h => by
    obtain ⟨rfl, rfl⟩ := hl
    rw [Expr.evalAll, pure_bind]
    exact h [] m fuel (.refl _ m fuel) .nil
  | e :: es, c, c', ops, m, fuel, K, hl, he, hg, hreads, hat, h => by
    obtain ⟨op, c₁, rest, hop, hrest, rfl⟩ := hl
    have hfirst := hop.computes hat.ready
    have hothers := hrest.computes hfirst.isReady
    rw [Expr.evalAll, bind_assoc]
    refine along_expr hw hop he.1 (hothers.advances.graph.trans hg)
      (hreads.mono fun n hn => Expr.mem_addReadsAll_cons.2 (.inl hn)) hat
      fun x m₁ fuel₁ hlater₁ hx => ?_
    rw [bind_assoc]
    refine along_exprs hw hrest he.2 hg
      (hreads.mono fun n hn => Expr.mem_addReadsAll_cons.2 (.inr hn))
      (hat.computed hop he.1 hlater₁) fun xs m₂ fuel₂ hlater₂ hxs => ?_
    rw [pure_bind]
    have hx₂ :=
      hx.sameBelow ((hfirst.reads op List.mem_cons_self).below hfirst.sound) hlater₂.registers
    exact h (x :: xs) m₂ fuel₂ (hlater₁.trans hlater₂ hfirst.advances.vars_le) (.cons hx₂ hxs)

end

end Pairing

end Interpose
