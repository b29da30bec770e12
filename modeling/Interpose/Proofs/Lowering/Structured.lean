import Interpose.Proofs.Graph.Dominators
import Interpose.Proofs.Lowering.Ways

/-!
# Lowered control flow is structured

The branches of a lowered function are those that its text tells, each as often as it tells them.
That is followed through the relations that say what lowering makes of each construct. What is known
about the branches of a text then holds of the graph: only loops lead back, each that can repeat
with one branch from the end of its body to its head, and the head dominates the body.
-/

set_option autoImplicit false

namespace Interpose

open Source

namespace Chart

variable {line : Nat}

/-! ## Every construct adds its branches -/

theorem LowersCondition.draws {c c' : Chart} {op : Operand} {v : Variable} {s : Spot}
    (hl : LowersCondition line op c v c') (h : c.Ready) (hs : c.spot = s) : c.Draws [] s c' := by
  cases op with
  | var w =>
    obtain ⟨-, rfl⟩ := hl
    exact .refl hs
  | const x =>
    obtain ⟨-, rfl⟩ := hl
    exact h.draws_emitted hs _ line
  | global n =>
    obtain ⟨-, rfl⟩ := hl
    exact h.draws_emitted hs _ line

mutual

/-- **An expression adds the branches that its text tells.** -/
theorem LowersExpr.draws :
    ∀ {e : Expr} {c c' : Chart} {op : Operand} {s : Spot}, LowersExpr line e c op c' →
    c.Ready → c.spot = s → c.Draws (e.edges s) (e.after s) c'
  | .name n, c, c', op, s, hl, h, hs => by
    obtain ⟨-, rfl⟩ := hl
    exact .refl hs
  | .lit x, c, c', op, s, hl, h, hs => by
    obtain ⟨-, rfl⟩ := hl
    exact .refl hs
  | .call callee args, c, c', op, s, hl, h, hs => by
    obtain ⟨f, c₁, ops, c₂, hf, hops, -, rfl⟩ := hl
    have hready₁ := (hf.computes h).isReady
    have hcallee := LowersExpr.draws hf h hs
    have hargs := LowersExprs.draws hops hready₁ hcallee.spot
    exact (hcallee.trans hargs).still
      ((hops.computes hready₁).isReady.draws_emitted hargs.spot _ line)
  | .choose cond onTrue onFalse, c, c', op, s, hl, h, hs => by
    obtain ⟨p, c₁, v, c₂, x, c₃, y, c₄, hp, hv, hx, hy, rfl, -⟩ := hl
    have hcomputes := hp.computes h
    obtain ⟨hcond, hhere⟩ := hcomputes.condition hv
    have hready := hcond.isReady
    have h₃ := hx.computes (hready.onTrue hhere)
    have hfalse := hready.onFalse hhere (Continues.armTrue hready hhere h₃.toContinues) h₃.sub
    have htest := LowersExpr.draws hp h hs
    have hcond' := htest.still (hv.draws hcomputes.isReady htest.spot)
    have hfork := hready.draws_forked hcond'.spot v c₂.env
    have hfirst := LowersExpr.draws hx (hready.onTrue hhere) hfork.spot
    have hmoved := draws_onFalse hcond'.spot hfirst.spot c₃.env
    have hsecond := LowersExpr.draws hy hfalse hmoved.spot
    have hjoin := (hready.choose hhere h₃ (hy.computes hfalse)).draws hsecond.spot []
    have harms := ((hfork.trans hfirst).still hmoved).trans hsecond
    -- both arms lead on to the join, each by one branch
    rw [List.flatMap_cons, List.flatMap_cons, leads_out hfirst.spot,
      leads_out hsecond.spot] at hjoin
    exact hcond'.trans (harms.trans hjoin)

theorem LowersExprs.draws : ∀ {es : List Expr} {c c' : Chart} {ops : List Operand} {s : Spot},
    LowersExprs line es c ops c' → c.Ready → c.spot = s →
    c.Draws (Expr.edgesAll es s) (Expr.afterAll es s) c'
  | [], c, c', ops, s, hl, h, hs => by
    obtain ⟨-, rfl⟩ := hl
    exact .refl hs
  | e :: es, c, c', ops, s, hl, h, hs => by
    obtain ⟨op, c₁, rest, hop, hrest, -⟩ := hl
    have hfirst := LowersExpr.draws hop h hs
    exact hfirst.trans (LowersExprs.draws hrest (hop.computes h).isReady hfirst.spot)

end

mutual

/-- **A statement adds the branches that its text tells.** -/
theorem LowersStmt.draws :
    ∀ {st : Stmt} {live : Names} {c c' : Chart} {s : Spot}, LowersStmt live st c c' →
    c.Ready → c.spot = s → c.Draws (st.edges s) (st.after s) c'
  | .assign line n e, live, c, c', s, hl, h, hs => by
    obtain ⟨op, c₁, hop, rfl⟩ := hl
    have hexpr := hop.draws h hs
    exact ⟨hexpr.adds, hexpr.spot⟩
  | .expr line e, live, c, c', s, hl, h, hs => by
    obtain ⟨op, hop⟩ := hl
    exact hop.draws h hs
  | .giveBack line e, live, c, c', s, hl, h, hs => by
    obtain ⟨op, c₁, hop, rfl⟩ := hl
    have hexpr := hop.draws h hs
    exact hexpr.still (draws_left (hop.computes h).isReady.bare hexpr.spot op)
  | .ifThen line cond onTrue, live, c, c', s, hl, h, hs => by
    obtain ⟨p, c₁, v, c₂, c₃, hp, hv, hbody, rfl⟩ := hl
    have hcomputes := hp.computes h
    obtain ⟨hcond, hhere⟩ := hcomputes.condition hv
    have hready := hcond.isReady
    obtain ⟨harm, hclosed⟩ := hbody.continues hready.only
    have htest := hp.draws h hs
    have hcond' := htest.still (hv.draws hcomputes.isReady htest.spot)
    have hopened := hready.draws_openedHere hcond'.spot c₂.env
    have hinner := LowersBody.draws hbody hready.only hopened.spot
    have hjoin := (hready.ifThen hhere harm).draws hinner.spot live
    rw [List.flatMap_cons, leads_skip hcond'.spot, flatMap_outs hinner.spot, hclosed] at hjoin
    exact hcond'.trans ((hopened.trans hinner).trans hjoin)
  | .ifElse line cond onTrue onFalse, live, c, c', s, hl, h, hs => by
    obtain ⟨p, c₁, v, c₂, c₃, c₄, hp, hv, htrue, hfalse, rfl⟩ := hl
    have hcomputes := hp.computes h
    obtain ⟨hcond, hhere⟩ := hcomputes.condition hv
    have hready := hcond.isReady
    obtain ⟨h₃, hclosed₃⟩ := htrue.continues (hready.onTrue hhere)
    have hwaits := hready.onFalse hhere (Continues.armTrue hready hhere h₃) fun _ _ hop => hop
    obtain ⟨h₄, hclosed₄⟩ := hfalse.continues hwaits
    have htest := hp.draws h hs
    have hcond' := htest.still (hv.draws hcomputes.isReady htest.spot)
    have hfork := hready.draws_forked hcond'.spot v c₂.env
    have hfirst := LowersBody.draws htrue (hready.onTrue hhere) hfork.spot
    have hmoved := draws_onFalse hcond'.spot hfirst.spot c₂.env
    have hsecond := LowersBody.draws hfalse hwaits hmoved.spot
    have hjoin := (hready.ifElse hhere h₃ h₄).draws hsecond.spot live
    have harms := ((hfork.trans hfirst).still hmoved).trans hsecond
    rw [List.flatMap_append, flatMap_outs hfirst.spot, flatMap_outs hsecond.spot,
      isEmpty_outs_append, hclosed₃, hclosed₄] at hjoin
    exact hcond'.trans (harms.trans hjoin)
  | .whileLoop line cond body, live, c, c', s, hl, h, hs => by
    obtain ⟨p, c₁, v, c₂, c₃, hp, hv, hbody, rfl⟩ := hl
    subst hs
    have hready₀ := (h.looped (carriedNames body (insideNames cond body live))).1.ready rfl
    have hcomputes := hp.computes hready₀
    obtain ⟨hcond, hhere⟩ := hcomputes.condition hv
    have hready := hcond.isReady
    obtain ⟨h₃, hclosed⟩ := hbody.continues (hready.onTrue hhere)
    -- the branch back is drawn when the body is done, and the block behind the loop is entered
    -- after that
    have hlooped := h.draws_looped rfl (carriedNames body (insideNames cond body live))
    have htest := hp.draws hready₀ hlooped.spot
    have hcond' := htest.still (hv.draws hcomputes.isReady htest.spot)
    have hfork := hready.draws_forked hcond'.spot v c₂.env
    have hinner := LowersBody.draws hbody (hready.onTrue hhere) hfork.spot
    have hback := draws_ledBack (fun hopen => (h₃.ready hopen).bare) hinner.spot c.next
      (carriedNames body (insideNames cond body live))
    rw [hclosed] at hback
    have hround := (hlooped.trans (hcond'.trans (hfork.trans hinner))).trans hback
    exact hround.still (draws_onFalse hcond'.spot hback.spot c₂.env)

theorem LowersBody.draws : ∀ {body : List Stmt} {live : Names} {c c' : Chart} {s : Spot},
    LowersBody live body c c' → c.Ready → c.spot = s →
    c.Draws (Stmt.edgesAll body s) (Stmt.afterAll body s) c'
  | [], live, c, c', s, hl, h, hs => by
    obtain rfl := hl
    exact .refl hs
  | st :: rest, live, c, c', s, hl, h, hs => by
    obtain ⟨c₁, hst, hrest⟩ := hl
    have hfirst := LowersStmt.draws hst h hs
    obtain ⟨h₁, hclosed⟩ := hst.continues h
    -- the rest is lowered exactly if the text says that the statement does not return
    rw [Stmt.edgesAll, Stmt.afterAll, ← hclosed]
    rcases hopen : c₁.closed with _ | _
    · rw [if_neg (by rw [hopen]; exact nofun)] at hrest
      exact hfirst.trans (LowersBody.draws hrest (h₁.ready hopen) hfirst.spot)
    · rw [if_pos hopen] at hrest
      obtain rfl := hrest
      rw [if_pos rfl, List.append_nil]
      exact hfirst

end

/-! ## Whole functions -/

/-- All branches of a function lie where its text has them, and so do its loops. -/
theorem LowersWhole.exists_draws {f : Source.Function} {c c' : Chart} (hl : LowersWhole f.body c c')
    (h : c.Ready) (hs : c.spot = .start) :
    ∃ edges s', c.Draws edges s' c' ∧ Spans .start edges f.loops s' := by
  obtain ⟨c₁, hbody, hend⟩ := hl
  have hdraws := hbody.draws h hs
  have hspans := Stmt.spansAll (splitResult f.body).1 .start Nat.one_pos
  rw [← f.loops_eq] at hspans
  rcases hopen : c₁.closed with _ | _
  · rw [if_neg (by rw [hopen]; exact nofun)] at hend
    have hlast := hend.draws ((hbody.continues h).1.ready hopen) hdraws.spot
    have hresult := (lastReturn (splitResult f.body).2).spans _ hspans.lt_next
    have hnone : ∀ s, (lastReturn (splitResult f.body).2).loops s = [] := by
      rcases (splitResult f.body).2 with _ | ⟨line, e⟩ <;> exact fun _ => rfl
    have hboth := hspans.trans hresult
    rw [hnone, List.append_nil] at hboth
    exact ⟨_, _, hdraws.trans hlast, hboth⟩
  · rw [if_pos hopen] at hend
    obtain rfl := hend
    exact ⟨_, _, hdraws, hspans⟩

theorem ways_start (names : List String) (file : String) (p t : BlockId) :
    (start names file).graph.ways p t = 0 := by
  unfold Graph.ways
  rw [block?_start]
  split <;> rfl

theorem spot_start (names : List String) (file : String) : (start names file).spot = .start :=
  congrArg (Spot.mk .entry) (Graph.size_withParams .empty .entry _)

/-- The graph of a function has the branches of its text. -/
theorem Lowers.drawn {d : Source.Function} {file : String} {c : Chart} (h : Lowers d file c) :
    ∃ edges s', c.graph.Drawn edges ∧ s'.next = c.graph.blocks.size
      ∧ Spans .start edges d.loops s' := by
  obtain ⟨edges, s', hdraws, hspans⟩ :=
    h.whole.exists_draws (ready_start d.params file) (spot_start d.params file)
  refine ⟨edges, s', fun p t => ?_, congrArg Spot.next hdraws.spot.symm, hspans⟩
  rw [hdraws.adds p t, ways_start, Nat.zero_add]

end Chart

namespace Graph

variable {g : Graph} {edges : List (BlockId × BlockId)}

/-- The branches that go back are those of all branches that lead back. -/
theorem Drawn.backEdges (h : g.Drawn edges) : g.backEdges.Perm (edges.filter leadsBack) := by
  refine List.perm_iff_count.2 fun e => ?_
  obtain ⟨p, t⟩ := e
  rw [count_backEdges, h p t]
  by_cases hle : t.index ≤ p.index
  · have hback : leadsBack (p, t) = true := decide_eq_true hle
    rw [if_pos hle, List.count_filter hback]
  · have hno : ¬leadsBack (p, t) = true := fun h => hle (of_decide_eq_true h)
    rw [if_neg hle, List.count_eq_zero.2 fun hmem => hno (List.mem_filter.1 hmem).2]

/-- A branch leads on, or back from the end of a loop to its head. -/
theorem Drawn.follows (h : g.Drawn edges) {loops : List Loop} {s s' : Spot}
    (hspans : Spans s edges loops s') {p t : BlockId} (hfollows : g.Follows p t) :
    p.index < t.index ∨ ∃ l ∈ loops, l.repeats = true ∧ l.edge = (p, t) := by
  by_cases hon : p.index < t.index
  · exact .inl hon
  · have hmem : (p, t) ∈ edges.filter leadsBack :=
      List.mem_filter.2 ⟨h.mem hfollows, decide_eq_true (Nat.not_lt.1 hon)⟩
    obtain ⟨l, hl, hedge⟩ := List.mem_map.1 (hspans.back.mem_iff.1 hmem)
    obtain ⟨hl, hrepeats⟩ := List.mem_filter.1 hl
    exact .inr ⟨l, hl, hrepeats, hedge⟩

/-- A block where no branch gets in but through the head is dominated by the head. -/
theorem Drawn.dominates (h : g.Drawn edges) {head b : BlockId} {stop : Nat}
    (hgated : Gated edges head stop) (hpos : 0 < head.index) (hle : head.index ≤ b.index)
    (hlt : b.index < stop) : g.Dominates head b := by
  intro before hw
  -- the walk is followed back as long as it stays behind the head
  induction hw with
  | start => exact absurd hle (Nat.not_le.2 hpos)
  | @step p t before hw hfollows ih =>
    by_cases heq : head = t
    · exact .inl heq
    · have hbehind : head.index < t.index :=
        Nat.lt_of_le_of_ne hle fun h => heq (by cases head; cases t; exact congrArg BlockId.mk h)
      obtain ⟨hfrom, hinside⟩ := hgated (p, t) (h.mem hfollows) hbehind hlt
      rcases ih hfrom hinside with rfl | hmem
      · exact .inr List.mem_cons_self
      · exact .inr (List.mem_cons_of_mem p hmem)

end Graph

/-- **Lowered control flow is structured.** Every function is lowered, and what its graph has of
back edges is one for each of its loops whose body does not always return, from the block where the
body ends to the head of the loop. The head dominates that block, which is reached. All other
branches lead to a later block. -/
theorem lowered_structured (d : Source.Function) (file : String) : ∃ g, lowerFunction d file = .ok g
    ∧ g.backEdges.Perm ((d.loops.filter Loop.repeats).map Loop.edge)
    ∧ (∀ l ∈ d.loops, l.last ∈ g.reachable ∧ g.Dominates l.head l.last)
    ∧ ∀ p t, g.Follows p t →
      p.index < t.index ∨ ∃ l ∈ d.loops, l.repeats = true ∧ l.edge = (p, t) := by
  obtain ⟨c, hc⟩ := Chart.exists_lowers d file
  obtain ⟨edges, s', hdrawn, hsize, hspans⟩ := hc.drawn
  refine ⟨c.graph, hc.yields, hdrawn.backEdges.trans hspans.back, fun l hl => ?_,
    fun p t => hdrawn.follows hspans⟩
  obtain ⟨hhead, hlast, stop, hstop, hbefore, hgated⟩ := hspans.loops l hl
  exact ⟨hc.reachable c.graph.provenance l.last (by omega),
    hdrawn.dominates hgated hhead hlast hbefore⟩

-- the inner loop always returns, so only the outer one leads back; the loop behind the return is
-- not lowered
example : ((Function.loops ⟨"f", ["a"], [
    .whileLoop 1 (.name "a") [.whileLoop 2 (.name "a") [.giveBack 3 (.name "a")]],
    .giveBack 4 (.name "a"),
    .whileLoop 5 (.name "a") []], 1⟩).filter Loop.repeats).map Loop.edge = [(⟨6⟩, ⟨1⟩)] := by
  decide

end Interpose
