import Interpose.Proofs.Lowering.Lowered

/-!
# Lowering is never refused

In a chart that is ready every expression and every statement is lowered: no check of an edit
refuses a step, and the steps lead where the relations of the constructs say.
-/

set_option autoImplicit false

namespace Interpose

open Drafting Source

namespace Chart

variable {c c' : Chart} {op : Operand} {v : Variable} {b : BlockId}

/-- To go on in another block is to stand there with the same names. -/
theorem yields_moved (hopen : c.closed = false) (b : BlockId) :
    Yields (modify ({ · with block := b })) c.toDraft () (c.moved b c.env false).toDraft := by
  refine yields_modify.2 ?_
  rw [← hopen]
  rfl

theorem Ready.yields_condition (h : c.Ready) (hop : c.Reads c.block op) (line : Nat) :
    ∃ v c', Yields (condition op line) c.toDraft v c'.toDraft ∧ LowersCondition line op c v c' := by
  have huses : ∀ s : Statement, s.operation = .operand op → ∀ v ∈ s.uses, c.Here c.block v := by
    intro s hs v hv
    rw [Statement.uses, Operation.uses, hs] at hv
    obtain ⟨op', hop', hv'⟩ := List.mem_filterMap.1 hv
    obtain rfl := List.mem_singleton.1 hop'
    exact hop v hv'
  cases op with
  | var w => exact ⟨w, c, yields_pure.2 ⟨rfl, rfl⟩, rfl, rfl⟩
  | const x => exact ⟨_, _, (h.emit (huses _ rfl) line).1, rfl, rfl⟩
  | global n => exact ⟨_, _, (h.emit (huses _ rfl) line).1, rfl, rfl⟩

mutual

/-- **Every expression is lowered.** -/
theorem Ready.lowersExpr (line : Nat) : ∀ (e : Expr) {c : Chart}, c.Ready → ∃ op c',
    Yields (lowerExpr line e) c.toDraft op c'.toDraft ∧ LowersExpr line e c op c'
  | .name n, c, h => by
    refine ⟨c.env.resolve n, c, ?_, rfl, rfl⟩
    unfold lowerExpr
    exact yields_bind.2 ⟨_, _, yields_get.2 ⟨rfl, rfl⟩, yields_pure.2 ⟨rfl, rfl⟩⟩
  | .lit x, c, h => by
    refine ⟨.const x, c, ?_, rfl, rfl⟩
    unfold lowerExpr
    exact yields_pure.2 ⟨rfl, rfl⟩
  | .call callee args, c, h => by
    obtain ⟨f, c₁, hyf, hf⟩ := Ready.lowersExpr line callee h
    have hcallee := hf.computes h
    obtain ⟨ops, c₂, hyops, hops⟩ := Ready.lowersExprs line args hcallee.isReady
    have hargs := hops.computes hcallee.isReady
    have hemit := hargs.isReady.emit (s := .plain (.call f ops)) (fun v hv => ?_) line
    · refine ⟨_, _, ?_, f, c₁, ops, c₂, hf, hops, rfl, rfl⟩
      unfold lowerExpr
      exact yields_bind.2 ⟨_, _, hyf, yields_bind.2 ⟨_, _, hyops, yields_bind.2 ⟨_, _, hemit.1,
        yields_pure.2 ⟨rfl, rfl⟩⟩⟩⟩
    · obtain ⟨op, hop, hv'⟩ := List.mem_filterMap.1 hv
      rcases List.mem_cons.1 hop with rfl | hop
      · exact hargs.toContinues.reads hargs.opened (hcallee.reads _ List.mem_cons_self) v hv'
      · exact hargs.reads op hop v hv'
  | .choose cond onTrue onFalse, c, h => by
    obtain ⟨p, c₁, hyp, hp⟩ := Ready.lowersExpr line cond h
    have hfirst := hp.computes h
    obtain ⟨v, c₂, hyv, hv⟩ :=
      hfirst.isReady.yields_condition (hfirst.reads p List.mem_cons_self) line
    obtain ⟨hcond, hhere⟩ := hfirst.condition hv
    have hready := hcond.isReady
    obtain ⟨x, c₃, hyx, hx⟩ := Ready.lowersExpr line onTrue (hready.onTrue hhere)
    have h₃ := hx.computes (hready.onTrue hhere)
    have harm₃ := Continues.armTrue hready hhere h₃.toContinues
    have hsecond := hready.onFalse hhere harm₃ h₃.sub
    obtain ⟨y, c₄, hyy, hy⟩ := Ready.lowersExpr line onFalse hsecond
    have h₄ := hy.computes hsecond
    have hjoin := (hready.choose hhere h₃ h₄).yields []
    -- both edges pass a value, and so the join has a parameter for it behind those for names
    have hvalued : Edge.outcome [c₃.out (some x), c₄.out (some y)] [] c₄.graph.varCount
        = some (.var ⟨c₄.graph.varCount
          + (Edge.parameters [c₃.out (some x), c₄.out (some y)] []).length⟩) := rfl
    refine ⟨_, _, ?_, p, c₁, v, c₂, x, c₃, y, c₄, hp, hv, hx, hy, rfl, hvalued.symm⟩
    unfold lowerExpr
    -- the steps in their order: condition, fork, arm, edge, arm, edge, join
    refine yields_bind.2 ⟨_, _, hyp,
      yields_bind.2 ⟨_, _, hyv,
      yields_bind.2 ⟨_, _, (hready.fork hhere).1,
      yields_bind.2 ⟨(), _, yields_moved (c := c₂.forked v) hready.opened _,
      yields_bind.2 ⟨_, _, hyx,
      yields_bind.2 ⟨_, _, yields_edge _ _,
      yields_bind.2 ⟨(), _, yields_moved h₃.opened _,
      yields_bind.2 ⟨_, _, hyy,
      yields_bind.2 ⟨_, _, yields_edge _ _,
      yields_bind.2 ⟨_, _, hjoin, ?_⟩⟩⟩⟩⟩⟩⟩⟩⟩⟩
    rw [hvalued]
    exact yields_pure.2 ⟨rfl, rfl⟩

theorem Ready.lowersExprs (line : Nat) : ∀ (es : List Expr) {c : Chart}, c.Ready → ∃ ops c',
    Yields (lowerExprs line es) c.toDraft ops c'.toDraft ∧ LowersExprs line es c ops c'
  | [], c, h => by
    refine ⟨[], c, ?_, rfl, rfl⟩
    unfold lowerExprs
    exact yields_pure.2 ⟨rfl, rfl⟩
  | e :: es, c, h => by
    obtain ⟨op, c₁, hyop, hop⟩ := Ready.lowersExpr line e h
    obtain ⟨ops, c₂, hyops, hops⟩ := Ready.lowersExprs line es (hop.computes h).isReady
    refine ⟨op :: ops, c₂, ?_, op, c₁, ops, hop, hops, rfl⟩
    unfold lowerExprs
    exact yields_bind.2 ⟨_, _, hyop, yields_bind.2 ⟨_, _, hyops, yields_pure.2 ⟨rfl, rfl⟩⟩⟩

end

/-- A body is not gone on with after a return. -/
theorem yields_lowerBody_closed {d : Draft} (h : d.closed = true) (live : Names)
    (body : List Stmt) : Yields (lowerBody live body) d () d := by
  cases body with
  | nil =>
    unfold lowerBody
    exact yields_pure.2 ⟨rfl, rfl⟩
  | cons st rest =>
    unfold lowerBody
    refine yields_bind.2 ⟨_, _, yields_get.2 ⟨rfl, rfl⟩, ?_⟩
    rw [if_pos h]
    exact yields_pure.2 ⟨rfl, rfl⟩

/-- The way back to the head is closed. -/
theorem Arm.yields_back {b head : BlockId} {others : List BlockId} {carried : Names}
    (h : c.Arm b others c') {promise : Variable → Prop}
    (hhead : c'.Awaits head carried.length promise) (hhere : ∀ v, promise v → c.Here b v)
    (env : Bindings) (exit : BlockId) :
    Yields (do
      let d ← get
      if !d.closed then branch d.block head (carried.map d.env.passed)
      enter exit env) c'.toDraft () ((c'.ledBack head carried).moved exit env false).toDraft := by
  refine yields_bind.2 ⟨_, _, yields_get.2 ⟨rfl, rfl⟩, ?_⟩
  unfold Chart.ledBack
  rcases hopen : c'.closed with _ | _
  · have hbranch := h.sound.yields_branch (h.bare_end hopen) (h.leads_back hopen hhead hhere)
    have hleft : (!false) = true := rfl
    have hright : ¬false = true := Bool.false_ne_true
    rw [if_pos hleft, if_neg hright]
    exact yields_bind.2 ⟨(), _, hbranch, yields_enter.2 rfl⟩
  · have hleft : ¬(!true) = true := Bool.false_ne_true
    rw [if_neg hleft, if_pos rfl]
    exact yields_enter.2 rfl

mutual

/-- **Every statement is lowered.** -/
theorem Ready.lowersStmt : ∀ (live : Names) (st : Stmt) {c : Chart}, c.Ready → ∃ c',
    Yields (lowerStmt live st) c.toDraft () c'.toDraft ∧ LowersStmt live st c c'
  | live, .assign line n e, c, h => by
    obtain ⟨op, c₁, hyop, hop⟩ := Ready.lowersExpr line e h
    refine ⟨_, ?_, op, c₁, hop, rfl⟩
    unfold lowerStmt
    exact yields_bind.2 ⟨_, _, hyop, yields_assign.2 rfl⟩
  | live, .expr line e, c, h => by
    obtain ⟨op, c₁, hyop, hop⟩ := Ready.lowersExpr line e h
    refine ⟨c₁, ?_, op, hop⟩
    unfold lowerStmt
    exact yields_bind.2 ⟨_, _, hyop, yields_pure.2 ⟨rfl, rfl⟩⟩
  | live, .giveBack line e, c, h => by
    obtain ⟨op, c₁, hyop, hop⟩ := Ready.lowersExpr line e h
    have hcomputes := hop.computes h
    have hready := hcomputes.isReady
    have hadd : (c₁.graph.branched c₁.block []).addBranch c₁.block (.leave op)
        = .ok (c₁.graph.branched c₁.block _) :=
      hready.sound.addBranch hready.bare (by nofun)
        (hcomputes.reads op List.mem_cons_self).leads_leave
    refine ⟨_, ?_, op, c₁, hop, rfl⟩
    unfold lowerStmt
    rw [Graph.branched_nil] at hadd
    exact yields_bind.2 ⟨_, _, hyop, yields_leave.2 ⟨_, hadd, rfl⟩⟩
  | live, .ifThen line cond onTrue, c, h => by
    obtain ⟨p, c₁, hyp, hp⟩ := Ready.lowersExpr line cond h
    have hfirst := hp.computes h
    obtain ⟨v, c₂, hyv, hv⟩ :=
      hfirst.isReady.yields_condition (hfirst.reads p List.mem_cons_self) line
    obtain ⟨hcond, hhere⟩ := hfirst.condition hv
    have hready := hcond.isReady
    obtain ⟨c₃, hybody, hbody⟩ := Ready.lowersBody live onTrue hready.only
    have h₃ := (hbody.continues hready.only).1
    refine ⟨_, ?_, p, c₁, v, c₂, c₃, hp, hv, hbody, rfl⟩
    unfold lowerStmt
    exact yields_bind.2 ⟨_, _, hyp,
      yields_bind.2 ⟨_, _, hyv,
      yields_bind.2 ⟨_, _, yields_get.2 ⟨rfl, rfl⟩,
      yields_bind.2 ⟨_, _, yields_openBlock.2 ⟨rfl, rfl⟩,
      yields_bind.2 ⟨(), _, yields_enter.2 rfl,
      yields_bind.2 ⟨(), _, hybody,
      yields_bind.2 ⟨_, _, yields_edge? c₃,
      yields_bind.2 ⟨_, _, (hready.ifThen hhere h₃).yields live,
      yields_pure.2 ⟨rfl, rfl⟩⟩⟩⟩⟩⟩⟩⟩⟩
  | live, .ifElse line cond onTrue onFalse, c, h => by
    obtain ⟨p, c₁, hyp, hp⟩ := Ready.lowersExpr line cond h
    have hfirst := hp.computes h
    obtain ⟨v, c₂, hyv, hv⟩ :=
      hfirst.isReady.yields_condition (hfirst.reads p List.mem_cons_self) line
    obtain ⟨hcond, hhere⟩ := hfirst.condition hv
    have hready := hcond.isReady
    obtain ⟨c₃, hytrue, htrue⟩ := Ready.lowersBody live onTrue (hready.onTrue hhere)
    have h₃ := (htrue.continues (hready.onTrue hhere)).1
    have hsecond := hready.onFalse hhere (Continues.armTrue hready hhere h₃) fun _ _ hop => hop
    obtain ⟨c₄, hyfalse, hfalse⟩ := Ready.lowersBody live onFalse hsecond
    have h₄ := (hfalse.continues hsecond).1
    refine ⟨_, ?_, p, c₁, v, c₂, c₃, c₄, hp, hv, htrue, hfalse, rfl⟩
    unfold lowerStmt
    exact yields_bind.2 ⟨_, _, hyp,
      yields_bind.2 ⟨_, _, hyv,
      yields_bind.2 ⟨_, _, yields_get.2 ⟨rfl, rfl⟩,
      yields_bind.2 ⟨_, _, (hready.fork hhere).1,
      yields_bind.2 ⟨(), _, yields_enter.2 rfl,
      yields_bind.2 ⟨(), _, hytrue,
      yields_bind.2 ⟨_, _, yields_edge? c₃,
      yields_bind.2 ⟨(), _, yields_enter.2 rfl,
      yields_bind.2 ⟨(), _, hyfalse,
      yields_bind.2 ⟨_, _, yields_edge? c₄,
      yields_bind.2 ⟨_, _, (hready.ifElse hhere h₃ h₄).yields live,
      yields_pure.2 ⟨rfl, rfl⟩⟩⟩⟩⟩⟩⟩⟩⟩⟩⟩⟩
  | live, .whileLoop line cond body, c, h => by
    obtain ⟨hloop, hhead⟩ := h.looped (carriedNames body (insideNames cond body live))
    have hentry :=
      yields_enterLoop h.sound h.bare h.env (carriedNames body (insideNames cond body live))
    obtain ⟨p, c₁, hyp, hp⟩ := Ready.lowersExpr line cond (hloop.ready rfl)
    have hfirst := hp.computes (hloop.ready rfl)
    obtain ⟨v, c₂, hyv, hv⟩ :=
      hfirst.isReady.yields_condition (hfirst.reads p List.mem_cons_self) line
    obtain ⟨hcond, hhere⟩ := hfirst.condition hv
    have hready := hcond.isReady
    obtain ⟨c₃, hybody, hbody⟩ := Ready.lowersBody (insideNames cond body live) body
      (hready.onTrue hhere)
    have h₃ := (hbody.continues (hready.onTrue hhere)).1
    have harm := Continues.armTrue hready hhere h₃
    have hfork := (hready.fork hhere).2
    -- the way back passes what the head was promised, and this is still bound at the end of the
    -- body
    have hback := harm.yields_back
      (((hhead.advance hcond.advances).advance hfork.advances).advance harm.advances)
      (fun w hw => (hfork.here w (hcond.here hcond.opened w (hloop.here rfl w hw))).1) c₂.env
      c₂.falseBlock
    refine ⟨_, ?_, p, c₁, v, c₂, c₃, hp, hv, hbody, rfl⟩
    unfold lowerStmt
    exact yields_bind.2 ⟨_, _, hentry,
      yields_bind.2 ⟨_, _, hyp,
      yields_bind.2 ⟨_, _, hyv,
      yields_bind.2 ⟨_, _, yields_get.2 ⟨rfl, rfl⟩,
      yields_bind.2 ⟨_, _, (hready.fork hhere).1,
      yields_bind.2 ⟨(), _, yields_enter.2 rfl,
      yields_bind.2 ⟨(), _, hybody, hback⟩⟩⟩⟩⟩⟩⟩

theorem Ready.lowersBody : ∀ (live : Names) (body : List Stmt) {c : Chart}, c.Ready → ∃ c',
    Yields (lowerBody live body) c.toDraft () c'.toDraft ∧ LowersBody live body c c'
  | live, [], c, h => by
    refine ⟨c, ?_, rfl⟩
    unfold lowerBody
    exact yields_pure.2 ⟨rfl, rfl⟩
  | live, st :: rest, c, h => by
    obtain ⟨c₁, hyst, hst⟩ := Ready.lowersStmt (Names.union (readsOf rest) live) st h
    obtain ⟨h₁, -⟩ := hst.continues h
    have hopened : ¬c.closed = true := by
      rw [h.opened]
      exact nofun
    have hbody : ∀ {c' : Chart}, Yields (lowerBody live rest) c₁.toDraft () c'.toDraft →
        Yields (lowerBody live (st :: rest)) c.toDraft () c'.toDraft := by
      intro c' hyrest
      unfold lowerBody
      refine yields_bind.2 ⟨_, _, yields_get.2 ⟨rfl, rfl⟩, ?_⟩
      rw [if_neg hopened]
      exact yields_bind.2 ⟨(), _, hyst, hyrest⟩
    -- what stands behind a return is passed over
    by_cases hclosed : c₁.closed = true
    · exact ⟨c₁, hbody (yields_lowerBody_closed hclosed live rest), c₁, hst, by rw [if_pos hclosed]⟩
    · obtain ⟨c₂, hyrest, hrest⟩ := Ready.lowersBody live rest
        (h₁.ready (by simpa using hclosed))
      exact ⟨c₂, hbody hyrest, c₁, hst, by rw [if_neg hclosed]; exact hrest⟩

end

end Chart

end Interpose
