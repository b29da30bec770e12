import Interpose.Proofs.Lowering.Continuing
import Interpose.Proofs.Source.Names

/-!
# What lowering makes of each construct

The relations of this module say for every expression and every statement which charts lowering goes
through. They follow the syntax, as lowering does, and name the blocks and edges that it puts
together. In a chart that is ready lowering is never refused: it yields a chart to which the
relation leads, and that chart continues the one before.
-/

set_option autoImplicit false

namespace Interpose

open Drafting Source

namespace Chart

/-! ## The relations -/

/-- The operand becomes a variable for a condition: it is one already, or a statement binds one. -/
def LowersCondition (line : Nat) (op : Operand) (c : Chart) (v : Variable) (c' : Chart) : Prop :=
  match op with
  | .var w => v = w ∧ c' = c
  | .const x => v = c.graph.fresh ∧ c' = c.emitted ⟨.operand (.const x), x.typeOf, 0⟩ line
  | .global n => v = c.graph.fresh ∧ c' = c.emitted (.plain (.operand (.global n))) line

mutual

/-- The expression is lowered from `c` to `c'` and its value is held by the operand. -/
def LowersExpr (line : Nat) : Expr → Chart → Operand → Chart → Prop
  | .name n, c, op, c' => op = c.env.resolve n ∧ c' = c
  | .lit x, c, op, c' => op = .const x ∧ c' = c
  | .call callee args, c, op, c' => ∃ f c₁ ops c₂, LowersExpr line callee c f c₁
    ∧ LowersExprs line args c₁ ops c₂ ∧ op = .var c₂.graph.fresh
    ∧ c' = c₂.emitted (.plain (.call f ops)) line
  | .choose cond onTrue onFalse, c, op, c' => ∃ p c₁ v c₂ x c₃ y c₄, LowersExpr line cond c p c₁
    ∧ LowersCondition line p c₁ v c₂
    ∧ LowersExpr line onTrue ((c₂.forked v).moved c₂.trueBlock c₂.env false) x c₃
    ∧ LowersExpr line onFalse (c₃.moved c₂.falseBlock c₃.env false) y c₄
    ∧ c' = c₄.joinedAll [c₃.out (some x), c₄.out (some y)] []
    ∧ some op = Edge.outcome [c₃.out (some x), c₄.out (some y)] [] c₄.graph.varCount

/-- The expressions are lowered in order. -/
def LowersExprs (line : Nat) : List Expr → Chart → List Operand → Chart → Prop
  | [], c, ops, c' => ops = [] ∧ c' = c
  | e :: es, c, ops, c' => ∃ op c₁ rest, LowersExpr line e c op c₁ ∧ LowersExprs line es c₁ rest c'
    ∧ ops = op :: rest

end

/-- The chart after the end of a loop's body was led back to the head. -/
def ledBack (c : Chart) (head : BlockId) (carried : Names) : Chart :=
  if c.closed then c else c.branched c.block [.jump head (carried.map c.env.passed)]

/-- The names that are read inside a loop or after it. -/
def insideNames (cond : Expr) (body : List Stmt) (live : Names) : Names :=
  Names.union (Names.union cond.reads (readsOf body)) live

mutual

/-- The statement is lowered from `c` to `c'`, if the names of `live` are read after it. -/
def LowersStmt (live : Names) : Stmt → Chart → Chart → Prop
  | .assign line n e, c, c' => ∃ op c₁, LowersExpr line e c op c₁
    ∧ c' = c₁.moved c₁.block (c₁.env.bind n op) c₁.closed
  | .expr line e, c, c' => ∃ op, LowersExpr line e c op c'
  | .giveBack line e, c, c' => ∃ op c₁, LowersExpr line e c op c₁
    ∧ c' = (c₁.branched c₁.block [.leave op]).moved c₁.block c₁.env true
  | .ifThen line cond onTrue, c, c' => ∃ p c₁ v c₂ c₃, LowersExpr line cond c p c₁
    ∧ LowersCondition line p c₁ v c₂
    ∧ LowersBody live onTrue (c₂.openedHere.moved c₂.trueBlock c₂.env false) c₃
    ∧ c' = c₃.joinedAll (c₂.skip v :: c₃.outs) live
  | .ifElse line cond onTrue onFalse, c, c' => ∃ p c₁ v c₂ c₃ c₄, LowersExpr line cond c p c₁
    ∧ LowersCondition line p c₁ v c₂
    ∧ LowersBody live onTrue ((c₂.forked v).moved c₂.trueBlock c₂.env false) c₃
    ∧ LowersBody live onFalse (c₃.moved c₂.falseBlock c₂.env false) c₄
    ∧ c' = c₄.joinedAll (c₃.outs ++ c₄.outs) live
  | .whileLoop line cond body, c, c' => ∃ p c₁ v c₂ c₃,
    let inside := insideNames cond body live
    let carried := carriedNames body inside
    LowersExpr line cond (c.looped carried) p c₁ ∧ LowersCondition line p c₁ v c₂
    ∧ LowersBody inside body ((c₂.forked v).moved c₂.trueBlock c₂.env false) c₃
    ∧ c' = (c₃.ledBack c.next carried).moved c₂.falseBlock c₂.env false

/-- The statements are lowered in order, up to one that returns on every way. -/
def LowersBody (live : Names) : List Stmt → Chart → Chart → Prop
  | [], c, c' => c' = c
  | st :: rest, c, c' => ∃ c₁, LowersStmt (Names.union (readsOf rest) live) st c c₁
    ∧ if c₁.closed then c' = c₁ else LowersBody live rest c₁ c'

end

variable {c c' : Chart} {line : Nat} {op : Operand} {v : Variable}

/-! ## Every construct continues the chart -/

theorem LowersCondition.computes (hl : LowersCondition line op c v c') (h : c.Ready)
    (hop : c.Reads c.block op) : c.Computes [.var v] c' := by
  have hemit : ∀ s : Statement, s.operation = .operand op →
      c.Computes [.var c.graph.fresh] (c.emitted s line) := by
    intro s hs
    refine (h.emit (s := s) (fun v hv => ?_) line).2
    rw [Statement.uses, Operation.uses, hs] at hv
    obtain ⟨op', hop', hv'⟩ := List.mem_filterMap.1 hv
    obtain rfl := List.mem_singleton.1 hop'
    exact hop v hv'
  cases op with
  | var w =>
    obtain ⟨rfl, rfl⟩ := hl
    refine .refl h fun op' hop' => ?_
    obtain rfl := List.mem_singleton.1 hop'
    exact hop
  | const x =>
    obtain ⟨rfl, rfl⟩ := hl
    exact hemit _ rfl
  | global n =>
    obtain ⟨rfl, rfl⟩ := hl
    exact hemit _ rfl

/-- A condition is lowered to a variable that is bound. -/
theorem Computes.condition {p : Operand} {c₁ : Chart} (hp : c.Computes [p] c₁)
    (hl : LowersCondition line p c₁ v c') : c.Computes [.var v] c' ∧ c'.Here c'.block v := by
  have hcomputes := hp.trans (hl.computes hp.isReady (hp.reads p List.mem_cons_self))
  exact ⟨hcomputes, hcomputes.reads _ List.mem_cons_self v rfl⟩

/-- A name stands for what is bound, or for a global. -/
theorem Ready.reads_resolve (h : c.Ready) (n : String) : c.Reads c.block (c.env.resolve n) := by
  unfold Bindings.resolve
  rcases hn : c.env.get? n with _ | op
  · exact nofun
  · exact h.env n op hn

/-- The first arm of a fork can be lowered. -/
theorem Ready.onTrue (h : c.Ready) (hv : c.Here c.block v) :
    ((c.forked v).moved c.trueBlock c.env false).Ready := by
  have hfork := (h.fork hv).2
  exact ready_moved hfork.sound ⟨_, hfork.onTrue, rfl⟩ fun n op hop w hw =>
    (hfork.here w (h.env n op hop w hw)).1

/-- When the first arm is lowered, the second one can be. -/
theorem Ready.onFalse (h : c.Ready) (hv : c.Here c.block v)
    (harm : (c.forked v).Arm c.trueBlock [c.falseBlock] c') {env : Bindings}
    (hsub : ∀ n op, env.get? n = some op → c.env.get? n = some op) :
    (c'.moved c.falseBlock env false).Ready := by
  have hfork := (h.fork hv).2
  have hbare : (c.forked v).Bare c.falseBlock := ⟨_, hfork.onFalse, rfl⟩
  exact ready_moved harm.sound (harm.bare List.mem_cons_self) fun n op hop w hw =>
    harm.here_of_bare hbare (hfork.here w (h.env n op (hsub n op hop) w hw)).2

theorem Continues.armTrue {c₁ : Chart} (h : c.Ready) (hv : c.Here c.block v)
    (h₁ : ((c.forked v).moved c.trueBlock c.env false).Continues c₁) :
    (c.forked v).Arm c.trueBlock [c.falseBlock] c₁ := by
  have hfork := (h.fork hv).2
  refine h₁.arm (fun a ha => ?_) fun hmem => hfork.distinct (List.mem_singleton.1 hmem)
  obtain rfl := List.mem_singleton.1 ha
  exact ⟨_, hfork.onFalse, rfl⟩

theorem Continues.armFalse {c₁ c₂ : Chart} {env : Bindings}
    (harm : (c.forked v).Arm c.trueBlock [c.falseBlock] c₁)
    (h₂ : (c₁.moved c.falseBlock env false).Continues c₂) : c₁.Arm c.falseBlock c₁.ends c₂ := by
  exact h₂.arm (fun a ha => harm.advances.stop a (List.mem_append_right _ ha))
    (harm.notMem_ends List.mem_cons_self)

/-- The arms of a conditional expression can be joined. Both lead on. -/
theorem Ready.choose (h : c.Ready) (hv : c.Here c.block v) {c₁ c₂ : Chart} {x y : Operand}
    (h₁ : ((c.forked v).moved c.trueBlock c.env false).Computes [x] c₁)
    (h₂ : (c₁.moved c.falseBlock c₁.env false).Computes [y] c₂) :
    c.Joinable c₂ [c₁.out (some x), c₂.out (some y)] := by
  have harm₁ := Continues.armTrue h hv h₁.toContinues
  have harm₂ := Continues.armFalse harm₁ h₂.toContinues
  obtain ⟨ha, hentered, hnodup, hends⟩ := (h.fork hv).2.arms harm₁ harm₂
  have hsources : [c₁.out (some x), c₂.out (some y)].map Edge.source = c₁.ends ++ c₂.ends := by
    rw [ends_opened h₁.opened, ends_opened h₂.opened]
    rfl
  rw [← hsources] at ha hnodup hends
  refine ⟨harm₂.sound, ha, fun b hnone hsome => .inl (hentered b hnone hsome), hnodup,
    fun e he => ?_, fun w hw e he => hends w hw e.source (List.mem_map_of_mem he)⟩
  rcases List.mem_cons.1 he with rfl | he
  · refine (harm₁.departs h₁.opened fun op hop => ?_).beside harm₂ ?_
    · exact Option.some.inj hop ▸ h₁.reads x List.mem_cons_self
    · rw [ends_opened h₁.opened]
      exact List.mem_cons_self
  · obtain rfl := List.mem_singleton.1 he
    refine harm₂.departs h₂.opened fun op hop => ?_
    exact Option.some.inj hop ▸ h₂.reads y List.mem_cons_self

mutual

/-- **An expression computes an operand.** -/
theorem LowersExpr.computes :
    ∀ {e : Expr} {c c' : Chart} {op : Operand}, LowersExpr line e c op c' →
    c.Ready → c.Computes [op] c'
  | .name n, c, c', op, hl, h => by
    obtain ⟨rfl, rfl⟩ := hl
    refine .refl h fun op hop => ?_
    obtain rfl := List.mem_singleton.1 hop
    exact h.reads_resolve n
  | .lit x, c, c', op, hl, h => by
    obtain ⟨rfl, rfl⟩ := hl
    refine .refl h fun op hop => ?_
    obtain rfl := List.mem_singleton.1 hop
    exact nofun
  | .call callee args, c, c', op, hl, h => by
    obtain ⟨f, c₁, ops, c₂, hf, hops, rfl, rfl⟩ := hl
    have hcallee := LowersExpr.computes hf h
    have hargs := LowersExprs.computes hops hcallee.isReady
    refine (hcallee.trans hargs).trans (hargs.isReady.emit (fun v hv => ?_) line).2
    -- the callee was computed first and is still bound after the arguments
    obtain ⟨op, hop, hv'⟩ := List.mem_filterMap.1 hv
    rcases List.mem_cons.1 hop with rfl | hop
    · exact hargs.toContinues.reads hargs.opened (hcallee.reads _ List.mem_cons_self) v hv'
    · exact hargs.reads op hop v hv'
  | .choose cond onTrue onFalse, c, c', op, hl, h => by
    obtain ⟨p, c₁, v, c₂, x, c₃, y, c₄, hp, hv, hx, hy, rfl, hop⟩ := hl
    obtain ⟨hcond, hhere⟩ := (LowersExpr.computes hp h).condition hv
    have hready := hcond.isReady
    have h₃ := LowersExpr.computes hx (hready.onTrue hhere)
    have harm₃ := Continues.armTrue hready hhere h₃.toContinues
    have h₄ := LowersExpr.computes hy (hready.onFalse hhere harm₃ h₃.sub)
    have harm₄ := Continues.armFalse harm₃ h₄.toContinues
    have hfork := (hready.fork hhere).2
    obtain ⟨ha, hentered, hnodup, hends⟩ := hfork.arms harm₃ harm₄
    have hjoin := hready.choose hhere h₃ h₄
    have hne : [c₃.out (some x), c₄.out (some y)] ≠ [] := nofun
    have hcontinues := hjoin.continues []
    rw [joinedAll_of_ne hne] at hcontinues ⊢
    refine ⟨hcond.toContinues.trans hcond.opened hcontinues, rfl, fun n op hget => ?_,
      fun op' hop' => ?_⟩
    · exact hcond.sub n op (h₃.sub n op (common?_cons (env_joined hget)))
    · obtain rfl := List.mem_singleton.1 hop'
      exact reads_outcome hjoin.sound hne hjoin.nodup hjoin.departs hop.symm

/-- Expressions compute operands. -/
theorem LowersExprs.computes : ∀ {es : List Expr} {c c' : Chart} {ops : List Operand},
    LowersExprs line es c ops c' → c.Ready → c.Computes ops c'
  | [], c, c', ops, hl, h => by
    obtain ⟨rfl, rfl⟩ := hl
    exact .refl h nofun
  | e :: es, c, c', ops, hl, h => by
    obtain ⟨op, c₁, rest, hop, hrest, rfl⟩ := hl
    have hfirst := LowersExpr.computes hop h
    have hothers := LowersExprs.computes hrest hfirst.isReady
    refine ⟨hfirst.toContinues.trans hfirst.opened hothers.toContinues, hothers.opened,
      fun n op hop => hfirst.sub n op (hothers.sub n op hop), fun op' hop' => ?_⟩
    rcases List.mem_cons.1 hop' with rfl | hop'
    · exact hothers.toContinues.reads hothers.opened (hfirst.reads _ List.mem_cons_self)
    · exact hothers.reads op' hop'

end

/-! ## Statements -/

theorem closed_joinedAll (c : Chart) (edges : List Edge) (live : Names) :
    (c.joinedAll edges live).closed = edges.isEmpty := by
  unfold joinedAll
  rcases edges.isEmpty with _ | _ <;> rfl

theorem isEmpty_outs (c : Chart) : c.outs.isEmpty = c.closed := by
  unfold outs
  rcases c.closed with _ | _ <;> rfl

theorem isEmpty_outs_append (c c' : Chart) :
    (c.outs ++ c'.outs).isEmpty = (c.closed && c'.closed) := by
  rw [← isEmpty_outs, ← isEmpty_outs]
  cases c.outs <;> rfl

/-- The way out of an arm, if there is one, departs. -/
theorem Arm.departs_outs {b : BlockId} {others : List BlockId} (h : c.Arm b others c') :
    ∀ e ∈ c'.outs, c'.Departs e := by
  intro e he
  obtain ⟨hopen, rfl⟩ := mem_outs.1 he
  exact h.departs hopen nofun

/-- A block takes that many arguments and was promised no more than that. -/
def Awaits (c : Chart) (b : BlockId) (k : Nat) (promise : Variable → Prop) : Prop :=
  (∃ block, c.graph.block? b = some block ∧ block.params.length = k) ∧ ∀ v, c.avail b v → promise v

theorem Awaits.advance {b : BlockId} {k : Nat} {promise : Variable → Prop} {o o' : List BlockId}
    (h : c.Awaits b k promise) (ha : Advances o c o' c') : c'.Awaits b k promise := by
  obtain ⟨⟨block, hb, hk⟩, hpromise⟩ := h
  obtain ⟨block', hb', hparams, -⟩ := ha.exists_block hb
  refine ⟨⟨block', hb', hparams ▸ hk⟩, fun v hv => hpromise v ?_⟩
  rw [ha.avail_eq b block hb] at hv
  exact hv

/-- The head of a loop continues the chart, and awaits the carried names. -/
theorem Ready.looped (h : c.Ready) (carried : Names) : c.Continues (c.looped carried)
    ∧ (c.looped carried).Awaits c.next carried.length fun v => c.Here c.block v := by
  have hmeets := meets_loop h.bare h.env carried
  refine ⟨⟨hmeets.sound h.sound, hmeets.advances h.sound, hmeets.entered h.sound, fun _ v hv => ?_,
    fun _ n op hop => reads_looped h.sound h.bare h.env hop⟩, ⟨_, hmeets.block?_target h.sound, ?_⟩,
    fun v hv => ?_⟩
  · refine here_met fun e he => ?_
    obtain rfl := List.mem_singleton.1 he
    exact hv
  · rw [Graph.length_newParams]
  · have havail : (c.looped carried).avail c.next = fun v => ∀ e ∈ [c.approach],
        c.Here e.source v :=
      avail_opened c _ carried.length
    rw [havail] at hv
    exact hv _ List.mem_cons_self

/-- Branches open no block. -/
theorem entered_branched (c : Chart) (b : BlockId) (brs : List Branch) :
    Entered c (c.branched b brs) := by
  intro a hnone hsome
  have hsame := Graph.block?_branched c.graph b a brs
  rw [hnone, Option.map_none, ite_self] at hsame
  have hnone' : (c.branched b brs).graph.block? a = none := hsame
  rw [hnone'] at hsome
  cases hsome

theorem entered_ledBack (c : Chart) (head : BlockId) (carried : Names) :
    Entered c (c.ledBack head carried) := by
  unfold Chart.ledBack
  split
  · intro b hnone hsome
    rw [hnone] at hsome
    cases hsome
  · exact entered_branched c _ _

/-- At the end of a loop's body the branch back to the head has all it needs. -/
theorem Arm.leads_back {c₁ : Chart} {b head : BlockId} {others : List BlockId} {carried : Names}
    (h : c.Arm b others c₁) (hopen : c₁.closed = false) {promise : Variable → Prop}
    (hhead : c₁.Awaits head carried.length promise) (hhere : ∀ v, promise v → c.Here b v) :
    c₁.Leads c₁.block (.jump head (carried.map c₁.env.passed)) := by
  obtain ⟨⟨block, hblock, hk⟩, hpromise⟩ := hhead
  refine ⟨fun v hv => ?_, ⟨block, hblock, ?_⟩, fun t ht v hv => ?_⟩
  · obtain ⟨op, hop, hv'⟩ := List.mem_filterMap.1 hv
    obtain ⟨n, -, rfl⟩ := List.mem_map.1 hop
    exact reads_passed (h.env hopen) n v hv'
  · rw [hk]
    exact List.length_map _
  · obtain rfl := Target.block.inj ht
    exact h.here hopen v (hhere v (hpromise v hv))

/-- After a loop's body only the exit is open. -/
theorem Arm.ledBack {c₁ : Chart} {b head : BlockId} {others : List BlockId} {carried : Names}
    (h : c.Arm b others c₁) {promise : Variable → Prop}
    (hhead : c₁.Awaits head carried.length promise) (hhere : ∀ v, promise v → c.Here b v) :
    (c₁.ledBack head carried).Sound
      ∧ Advances c₁.ends c₁ [] (c₁.ledBack head carried) := by
  unfold Chart.ledBack
  rcases hopen : c₁.closed with _ | _
  · have hleads := h.leads_back hopen hhead hhere
    have hclosing : Closing [Branch.jump head (carried.map c₁.env.passed)] :=
      ⟨[], _, rfl, rfl, nofun⟩
    rw [if_neg nofun, ends_opened hopen]
    refine ⟨h.sound.branched (h.bare_end hopen) hclosing fun br hbr => ?_,
      advances_branched (h.bare_end hopen) hclosing⟩
    obtain rfl := List.mem_singleton.1 hbr
    exact hleads
  · rw [if_pos rfl, ends_closed hopen]
    exact ⟨h.sound, .refl nofun⟩

/-- The arm of a conditional without a second one. -/
theorem Continues.armOnly (h : c.Ready) {c₁ : Chart}
    (h₁ : (c.openedHere.moved c.trueBlock c.env false).Continues c₁) :
    c.openedHere.Arm c.trueBlock [c.block] c₁ := by
  obtain ⟨block, hb, hempty⟩ := h.bare
  have hb₁ := h.sound.advances_openedHere.frame _ _ nofun hb
  refine h₁.arm (fun a ha => ?_) fun hmem => ?_
  · obtain rfl := List.mem_singleton.1 ha
    exact ⟨block, hb₁, hempty⟩
  · exact ne_next hb (List.mem_singleton.1 hmem).symm

theorem Ready.only (h : c.Ready) : (c.openedHere.moved c.trueBlock c.env false).Ready := by
  have hself : c.openedHere.graph.block? c.trueBlock = some .empty := by
    rw [h.sound.block?_openedHere, if_pos rfl]
  refine ready_moved h.sound.openedHere ⟨_, hself, rfl⟩ fun n op hop v hv => .inl ?_
  rw [openedHere, trueBlock, avail_opened]
  exact h.env n op hop v hv

/-- The arm of a conditional can be joined with the way past it. -/
theorem Ready.ifThen (h : c.Ready) (hv : c.Here c.block v) {c₁ : Chart}
    (h₁ : (c.openedHere.moved c.trueBlock c.env false).Continues c₁) :
    c.Joinable c₁ (c.skip v :: c₁.outs) := by
  obtain ⟨block, hb, hempty⟩ := h.bare
  have harm := Continues.armOnly h h₁
  have hopen := h.sound.advances_openedHere
  have hself : c.openedHere.graph.block? c.trueBlock = some .empty := by
    rw [h.sound.block?_openedHere, if_pos rfl]
  have hsources : (c.skip v :: c₁.outs).map Edge.source = c.block :: c₁.ends := by
    rw [List.map_cons, map_source_outs]
    rfl
  have hne : c.block ≠ c.trueBlock := ne_next hb
  have hstill : ∀ w, c.Here c.block w → c₁.Here c.block w := fun w hw =>
    harm.here_of_bare ⟨block, hopen.frame _ _ nofun hb, hempty⟩ (hopen.here hb hw)
  refine ⟨harm.sound, ?_, fun b hnone hsome => ?_, ?_, fun e he => ?_, fun w hw e he => ?_⟩
  · have ha₁ : Advances [c.block] c [c.block, c.trueBlock] c.openedHere :=
      hopen.beside h.bare_all nofun
    rw [hsources]
    exact ha₁.trans harm.advances (by grind) (by grind) (by grind) (by grind)
  · rcases hopened : c.openedHere.graph.block? b with _ | block'
    · exact .inl (harm.entered b hopened hsome)
    · -- the arm is entered by the way past it
      rw [h.sound.block?_openedHere] at hopened
      by_cases hbt : b = c.trueBlock
      · subst hbt
        exact .inr ⟨c.skip v, List.mem_cons_self, Graph.lt_size_of_block? hb, v, rfl⟩
      · rw [if_neg hbt, hnone] at hopened
        cases hopened
  · rw [hsources, List.nodup_cons]
    exact ⟨harm.notMem_ends List.mem_cons_self, nodup_ends _⟩
  · rcases List.mem_cons.1 he with rfl | he
    · obtain ⟨block', hb', hparams, -⟩ := harm.advances.exists_block hself
      refine ⟨harm.bare List.mem_cons_self, fun n op hop w hw => hstill w (h.env n op hop w hw),
        nofun, fun w other hu => ?_⟩
      obtain ⟨rfl, rfl⟩ := Prod.mk.inj (Option.some.inj hu)
      refine ⟨hstill _ hv, ⟨block', hb', hparams⟩, fun w hw => hstill w ?_⟩
      rw [harm.advances.avail_eq _ _ hself, openedHere, trueBlock, avail_opened] at hw
      exact hw
    · exact harm.departs_outs e he
  · rcases List.mem_cons.1 he with rfl | he
    · exact hstill w hw
    · obtain ⟨hopen, rfl⟩ := mem_outs.1 he
      refine harm.here hopen w (.inl ?_)
      rw [openedHere, trueBlock, avail_opened]
      exact hw

/-- The arms of a conditional can be joined, as far as they lead on. -/
theorem Ready.ifElse (h : c.Ready) (hv : c.Here c.block v) {c₁ c₂ : Chart}
    (h₁ : ((c.forked v).moved c.trueBlock c.env false).Continues c₁)
    (h₂ : (c₁.moved c.falseBlock c.env false).Continues c₂) :
    c.Joinable c₂ (c₁.outs ++ c₂.outs) := by
  have harm₁ := Continues.armTrue h hv h₁
  have harm₂ := Continues.armFalse harm₁ h₂
  obtain ⟨ha, hentered, hnodup, hends⟩ := (h.fork hv).2.arms harm₁ harm₂
  have hsources : (c₁.outs ++ c₂.outs).map Edge.source = c₁.ends ++ c₂.ends := by
    rw [List.map_append, map_source_outs, map_source_outs]
  rw [← hsources] at ha hnodup hends
  refine ⟨harm₂.sound, ha, fun b hnone hsome => .inl (hentered b hnone hsome), hnodup,
    fun e he => ?_, fun w hw e he => hends w hw e.source (List.mem_map_of_mem he)⟩
  rcases List.mem_append.1 he with he | he
  · refine (harm₁.departs_outs e he).beside harm₂ ?_
    rw [← map_source_outs]
    exact List.mem_map_of_mem he
  · exact harm₂.departs_outs e he

/-- **A loop continues the chart**, from its head on. -/
theorem Ready.whileLoop (h : c.Ready) (hv : c.Here c.block v) {c₁ : Chart} {head : BlockId}
    {carried : Names} {promise : Variable → Prop} (hhead : c.Awaits head carried.length promise)
    (hhere : ∀ w, promise w → c.Here c.block w)
    (h₁ : ((c.forked v).moved c.trueBlock c.env false).Continues c₁) :
    c.Continues ((c₁.ledBack head carried).moved c.falseBlock c.env false) := by
  have hfork := (h.fork hv).2
  have harm := Continues.armTrue h hv h₁
  have hbare : (c.forked v).Bare c.falseBlock := ⟨_, hfork.onFalse, rfl⟩
  have hexit : ∀ w, c.Here c.block w → c₁.Here c.falseBlock w := fun w hw =>
    harm.here_of_bare hbare (hfork.here w hw).2
  obtain ⟨block, hblock, hempty⟩ := harm.bare List.mem_cons_self
  obtain ⟨hsound, hback⟩ := harm.ledBack ((hhead.advance hfork.advances).advance harm.advances)
    fun w hw => (hfork.here w (hhere w hw)).1
  -- drafting goes on at the exit, which was left open while the body was lowered
  refine ⟨hsound.moved, ?_, ?_, fun _ w hw => hback.here hblock (hexit w hw),
    fun _ n op hop w hw => hback.here hblock (hexit w (h.env n op hop w hw))⟩
  · have hexits : c.falseBlock ∉ c₁.ends := harm.notMem_ends List.mem_cons_self
    have hne := hfork.distinct
    have ha₁ : Advances [c.block] c (c.falseBlock :: c₁.ends) c₁ :=
      hfork.advances.trans harm.advances (by grind) (by grind) (by grind) (by grind)
    have ha₂ : Advances [c.block] c [c.falseBlock] (c₁.ledBack head carried) :=
      ha₁.trans hback (by grind) (by grind) nofun (by grind)
    exact ha₂.moved
  · have hentered : Entered c (c₁.ledBack head carried) :=
      (hfork.entered.trans harm.entered harm.advances).trans (entered_ledBack c₁ head carried) hback
    exact hentered

theorem Computes.assign (h : c.Computes [op] c') (n : String) :
    c.Continues (c'.moved c'.block (c'.env.bind n op) c'.closed) := by
  refine ⟨h.sound.moved, h.advances.moved, h.entered, h.here, fun hopen m op' hop' => ?_⟩
  have hget := (Bindings.get?_bind c'.env n m op).symm.trans hop'
  by_cases hnm : n = m
  · rw [if_pos hnm] at hget
    obtain rfl := Option.some.inj hget
    exact h.reads _ List.mem_cons_self
  · rw [if_neg hnm] at hget
    exact h.env hopen m op' hget

/-- A return has all it needs. -/
theorem Reads.leads_leave (hop : c.Reads c.block op) : c.Leads c.block (.leave op) := by
  refine ⟨fun v hv => ?_, rfl, nofun⟩
  obtain ⟨op', hop', hv'⟩ := List.mem_filterMap.1 hv
  obtain rfl := List.mem_singleton.1 hop'
  exact hop v hv'

theorem Computes.giveBack (h : c.Computes [op] c') :
    c.Continues ((c'.branched c'.block [.leave op]).moved c'.block c'.env true) := by
  have hready := h.isReady
  have hclosing : Closing [Branch.leave op] := ⟨[], _, rfl, rfl, nofun⟩
  have hleads := (h.reads op List.mem_cons_self).leads_leave
  have ha := h.advances
  rw [ends_opened h.opened] at ha
  have hclosed := advances_branched hready.bare hclosing
  have hall : Advances [c.block] c [] (c'.branched c'.block [.leave op]) :=
    ha.trans hclosed (fun b hb => hb) (fun b hb => .inl hb) nofun nofun
  refine ⟨(hready.sound.branched hready.bare hclosing fun br hbr => ?_).moved, hall.moved, ?_,
    nofun, nofun⟩
  · obtain rfl := List.mem_singleton.1 hbr
    exact hleads
  · have hentered : Entered c (c'.branched c'.block [.leave op]) :=
      h.entered.trans (entered_branched c' c'.block _) hclosed
    exact hentered

mutual

/-- **Every statement continues the chart**, and closes it exactly if it returns on every way. -/
theorem LowersStmt.continues :
    ∀ {st : Stmt} {live : Names} {c c' : Chart}, LowersStmt live st c c' →
    c.Ready → c.Continues c' ∧ c'.closed = st.returns
  | .assign line n e, live, c, c', hl, h => by
    obtain ⟨op, c₁, hop, rfl⟩ := hl
    have hcomputes := hop.computes h
    exact ⟨hcomputes.assign n, hcomputes.opened⟩
  | .expr line e, live, c, c', hl, h => by
    obtain ⟨op, hop⟩ := hl
    have hcomputes := hop.computes h
    exact ⟨hcomputes.toContinues, hcomputes.opened⟩
  | .giveBack line e, live, c, c', hl, h => by
    obtain ⟨op, c₁, hop, rfl⟩ := hl
    exact ⟨(hop.computes h).giveBack, rfl⟩
  | .ifThen line cond onTrue, live, c, c', hl, h => by
    obtain ⟨p, c₁, v, c₂, c₃, hp, hv, hbody, rfl⟩ := hl
    obtain ⟨hcond, hhere⟩ := (hp.computes h).condition hv
    have h₃ := (LowersBody.continues hbody hcond.isReady.only).1
    exact ⟨hcond.toContinues.trans hcond.opened ((hcond.isReady.ifThen hhere h₃).continues live),
      closed_joinedAll _ _ _⟩
  | .ifElse line cond onTrue onFalse, live, c, c', hl, h => by
    obtain ⟨p, c₁, v, c₂, c₃, c₄, hp, hv, htrue, hfalse, rfl⟩ := hl
    obtain ⟨hcond, hhere⟩ := (hp.computes h).condition hv
    have hready := hcond.isReady
    obtain ⟨h₃, hclosed₃⟩ := LowersBody.continues htrue (hready.onTrue hhere)
    obtain ⟨h₄, hclosed₄⟩ := LowersBody.continues hfalse
      (hready.onFalse hhere (Continues.armTrue hready hhere h₃) fun _ _ hop => hop)
    refine ⟨hcond.toContinues.trans hcond.opened ((hready.ifElse hhere h₃ h₄).continues live), ?_⟩
    -- it is closed if no arm leads on
    rw [closed_joinedAll, isEmpty_outs_append, hclosed₃, hclosed₄]
    rfl
  | .whileLoop line cond body, live, c, c', hl, h => by
    obtain ⟨p, c₁, v, c₂, c₃, hp, hv, hbody, rfl⟩ := hl
    obtain ⟨hloop, hhead⟩ := h.looped (carriedNames body (insideNames cond body live))
    have hready := hloop.ready rfl
    obtain ⟨hcond, hhere⟩ := (hp.computes hready).condition hv
    have h₃ := (LowersBody.continues hbody (hcond.isReady.onTrue hhere)).1
    -- what is promised at the head is bound in the whole loop, as the way back has to keep it
    have hpromise : ∀ w, c.Here c.block w → c₂.Here c₂.block w := fun w hw =>
      hcond.here hcond.opened w (hloop.here rfl w hw)
    exact ⟨(hloop.trans rfl hcond.toContinues).trans hcond.opened
      (hcond.isReady.whileLoop hhere (hhead.advance hcond.advances) hpromise h₃), rfl⟩

/-- The same for statements in order. -/
theorem LowersBody.continues : ∀ {body : List Stmt} {live : Names} {c c' : Chart},
    LowersBody live body c c' → c.Ready → c.Continues c' ∧ c'.closed = Stmt.returnsAll body
  | [], live, c, c', hl, h => by
    obtain rfl := hl
    exact ⟨.refl h, h.opened⟩
  | st :: rest, live, c, c', hl, h => by
    obtain ⟨c₁, hst, hrest⟩ := hl
    obtain ⟨h₁, hclosed⟩ := LowersStmt.continues hst h
    rcases hopen : c₁.closed with _ | _
    · rw [if_neg (by rw [hopen]; exact nofun)] at hrest
      obtain ⟨h₂, hclosed₂⟩ := LowersBody.continues hrest (h₁.ready hopen)
      refine ⟨h₁.trans hopen h₂, ?_⟩
      rw [Stmt.returnsAll, ← hclosed, hopen, hclosed₂, Bool.false_or]
    · rw [if_pos hopen] at hrest
      obtain rfl := hrest
      refine ⟨h₁, ?_⟩
      rw [Stmt.returnsAll, ← hclosed, hopen, Bool.true_or]

end

end Chart

end Interpose
