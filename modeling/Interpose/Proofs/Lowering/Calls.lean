import Interpose.Proofs.Graph.Arising
import Interpose.Proofs.Lowering.Scope
import Interpose.Proofs.Lowering.Whole
import Interpose.Proofs.Source.Direct

/-!
# The calls that are lowered

Every call of a function that lowering comes to becomes one statement of its graph. The calls of the
tree are listed here in the order in which lowering emits them: a callee and its arguments before
the call itself, statements in order up to one that returns on every way. With each call the names
are noted that are possibly bound at its place. Those of the graph are listed in the order in which
their variables were handed out, and so both lists go in step.

A callee that is a name stands for the global of that name, unless the name is possibly bound there.
That is carried along by one invariant: lowering has bindings only for names that are possibly
bound.
-/

set_option autoImplicit false

namespace Interpose

open Source

/-! ## Calls of a graph -/

/-- The callee and the arguments of a statement that calls. -/
def Statement.call? (s : Statement) : Option (Operand × List Operand) :=
  match s.operation with
  | .call callee args => some (callee, args)
  | .operand _ => none

namespace Graph

/-- The calls of the graph, in the order in which their variables were handed out. -/
def calls (g : Graph) : List (Operand × List Operand) :=
  (List.range g.varCount).filterMap fun i => (g.get? ⟨i⟩).bind Statement.call?

/-- The statements of the block at a position, none where there is no block. -/
def bodyAt (g : Graph) (b : BlockId) : List (Variable × Statement) :=
  ((g.block? b).getD .empty).body

/-- Variables may have been handed out, but not for statements. -/
structure KeepsBodies (g g' : Graph) : Prop where
  vars_le : g.varCount ≤ g'.varCount
  bodyAt : ∀ b, g'.bodyAt b = g.bodyAt b

variable {g g' g'' : Graph}

theorem KeepsBodies.refl (g : Graph) : g.KeepsBodies g := ⟨Nat.le_refl _, fun _ => rfl⟩

theorem KeepsBodies.trans (h : g.KeepsBodies g') (h' : g'.KeepsBodies g'') : g.KeepsBodies g'' :=
  ⟨Nat.le_trans h.vars_le h'.vars_le, fun b => (h'.bodyAt b).trans (h.bodyAt b)⟩

theorem keepsBodies_addBlock (g : Graph) : g.KeepsBodies g.addBlock.1 := by
  refine ⟨Nat.le_refl _, fun b => ?_⟩
  rw [Graph.bodyAt, Graph.bodyAt, block?_addBlock]
  by_cases hb : b.index = g.blocks.size
  · have hnone : g.block? b = none := by
      rcases h : g.block? b with _ | block
      · rfl
      · exact absurd (lt_size_of_block? h) (by omega)
    rw [if_pos hb, hnone]
    rfl
  · rw [if_neg hb]

theorem keepsBodies_withParams (g : Graph) (b : BlockId) (k : Nat) :
    g.KeepsBodies (g.withParams b k) := by
  induction k with
  | zero => exact .refl g
  | succ k ih =>
    refine ih.trans ⟨?_, fun c => ?_⟩
    · rw [withParams, varCount_withParam]
      exact Nat.le_succ _
    · rw [withParams, Graph.bodyAt, Graph.bodyAt, block?_withParam]
      cases (g.withParams b k).block? c <;> rfl

theorem keepsBodies_branched (g : Graph) (b : BlockId) (brs : List Branch) :
    g.KeepsBodies (g.branched b brs) := by
  refine ⟨Nat.le_refl _, fun c => ?_⟩
  rw [Graph.bodyAt, Graph.bodyAt, block?_branched]
  split
  · cases g.block? c <;> rfl
  · rfl

theorem keepsBodies_connected (g : Graph) (brs : Edge → List Branch) (edges : List Edge) :
    g.KeepsBodies (g.connected brs edges) := by
  induction edges generalizing g with
  | nil => exact .refl g
  | cons e es ih => exact (g.keepsBodies_branched _ _).trans (ih _)

theorem mem_statements_iff_bodyAt {e : Variable × Statement} :
    e ∈ g.statements ↔ ∃ b, e ∈ g.bodyAt b := by
  obtain ⟨v, s⟩ := e
  rw [mem_statements]
  constructor
  · rintro ⟨b, block, i, hb, hi⟩
    refine ⟨b, ?_⟩
    rw [Graph.bodyAt, hb]
    exact List.mem_iff_getElem?.2 ⟨i, hi⟩
  · rintro ⟨b, hmem⟩
    rw [Graph.bodyAt] at hmem
    rcases hb : g.block? b with _ | block
    · rw [hb] at hmem
      cases hmem
    · rw [hb] at hmem
      obtain ⟨i, hi⟩ := List.mem_iff_getElem?.1 hmem
      exact ⟨b, block, i, hb, hi⟩

theorem get?_of_le {v : Variable} (hv : g.varCount ≤ v.index) : g.get? v = none := by
  have hnone : g.site? v = none := Array.getElem?_eq_none hv
  rw [get?, hnone]
  rfl

/-- Where no statement is added no call is. -/
theorem KeepsBodies.calls_eq (h : g.KeepsBodies g') (hg : g.Coherent) (hg' : g'.Coherent) :
    g'.calls = g.calls := by
  have hget : ∀ v, g'.get? v = g.get? v := by
    intro v
    refine Option.ext fun s => ?_
    rw [hg'.get?_iff, hg.get?_iff, mem_statements_iff_bodyAt, mem_statements_iff_bodyAt]
    exact exists_congr fun b => by rw [h.bodyAt]
  obtain ⟨k, hk⟩ := Nat.exists_eq_add_of_le h.vars_le
  have hnew : ((List.range k).map (g.varCount + ·)).filterMap
      (fun i => (g.get? ⟨i⟩).bind Statement.call?) = [] := by
    refine List.filterMap_eq_nil_iff.2 fun i hi => ?_
    obtain ⟨j, -, rfl⟩ := List.mem_map.1 hi
    rw [get?_of_le (Nat.le_add_right _ _)]
    rfl
  simp only [calls, hget]
  rw [hk, List.range_add, List.filterMap_append, hnew, List.append_nil]

end Graph

namespace Chart

variable {c c' c'' : Chart} {line : Nat} {v : Variable} {bound : Names} {n : String}

/-- Of the steps of drafting only the emission of a statement adds a call, if the statement is
one. -/
theorem calls_emitted (hg : c.graph.Coherent) (hbare : c.Bare c.block) {s : Statement}
    (hg' : (c.emitted s line).graph.Coherent) :
    (c.emitted s line).graph.calls = c.graph.calls ++ s.call?.toList := by
  obtain ⟨block, hb, -⟩ := hbare
  -- the statement is put behind what its block has, and it takes the next number
  have hmem : ∀ e, e ∈ (c.emitted s line).graph.statements
      ↔ e ∈ c.graph.statements ∨ e = (c.graph.fresh, Drafting.emitted c.toDraft s line) := by
    intro e
    rw [Graph.mem_statements_iff_bodyAt, Graph.mem_statements_iff_bodyAt]
    simp only [Graph.bodyAt, block?_emitted hb]
    constructor
    · rintro ⟨a, ha⟩
      split at ha
      · next heq =>
        subst heq
        rcases List.mem_append.1 ha with ha | ha
        · exact .inl ⟨c.block, by rw [hb]; exact ha⟩
        · exact .inr (List.mem_singleton.1 ha)
      · exact .inl ⟨a, ha⟩
    · rintro (⟨a, ha⟩ | rfl)
      · refine ⟨a, ?_⟩
        split
        · next heq =>
          subst heq
          rw [hb] at ha
          exact List.mem_append_left _ ha
        · exact ha
      · refine ⟨c.block, ?_⟩
        rw [if_pos rfl]
        exact List.mem_append_right _ List.mem_cons_self
  have hnew : (c.emitted s line).graph.get? c.graph.fresh
      = some (Drafting.emitted c.toDraft s line) :=
    (hg'.get?_iff _ _).2 ((hmem _).2 (.inr rfl))
  have hold : ∀ i ∈ List.range c.graph.varCount, (c.emitted s line).graph.get? ⟨i⟩
      = c.graph.get? ⟨i⟩ := by
    intro i hi
    have hne : (⟨i⟩ : Variable) ≠ c.graph.fresh := fun heq =>
      Nat.ne_of_lt (List.mem_range.1 hi) (congrArg Variable.index heq)
    refine Option.ext fun s' => ?_
    rw [hg'.get?_iff, hg.get?_iff, hmem]
    exact or_iff_left fun heq => hne (congrArg Prod.fst heq)
  -- calls are listed by the numbers of their variables, so that the new one comes last
  rw [Graph.calls, varCount_emitted, List.range_succ, List.filterMap_append, Graph.calls]
  congr 1
  · exact List.filterMap_congr fun i hi => by rw [hold i hi]
  · have hcall : ((c.emitted s line).graph.get? ⟨c.graph.varCount⟩).bind Statement.call?
        = s.call? := by
      rw [show (⟨c.graph.varCount⟩ : Variable) = c.graph.fresh from rfl, hnew]
      rfl
    rw [List.filterMap_cons, hcall]
    cases s.call? <;> rfl

/-! ## Steps without statements -/

theorem keepsBodies_opened (c : Chart) (promise : Variable → Prop) (k : Nat) :
    c.graph.KeepsBodies (c.opened promise k).graph :=
  c.graph.keepsBodies_addBlock.trans (Graph.keepsBodies_withParams _ _ _)

theorem keepsBodies_openedHere (c : Chart) : c.graph.KeepsBodies c.openedHere.graph :=
  c.keepsBodies_opened _ 0

theorem keepsBodies_met (c : Chart) (k : Nat) (brs : Edge → List Branch) (edges : List Edge)
    (env : Bindings) : c.graph.KeepsBodies (c.met k brs edges env).graph :=
  (c.keepsBodies_opened _ k).trans (Graph.keepsBodies_connected _ brs edges)

theorem keepsBodies_forked (c : Chart) (v : Variable) : c.graph.KeepsBodies (c.forked v).graph :=
  (c.keepsBodies_openedHere.trans c.openedHere.keepsBodies_openedHere).trans
    (Graph.keepsBodies_branched ..)

theorem keepsBodies_joinedAll (c : Chart) (edges : List Edge) (live : Names) :
    c.graph.KeepsBodies (c.joinedAll edges live).graph := by
  unfold joinedAll
  split
  · exact .refl _
  · exact c.keepsBodies_met ..

theorem keepsBodies_ledBack (c : Chart) (head : BlockId) (carried : Names) :
    c.graph.KeepsBodies (c.ledBack head carried).graph := by
  unfold ledBack
  split
  · exact .refl _
  · exact Graph.keepsBodies_branched ..

end Chart

/-! ## Calls of a tree -/

namespace Source

/-- A call at a place of a function, with the names that are possibly bound there. -/
structure CallSite where
  callee : Expr
  args : List Expr
  bound : Names

mutual

/-- The calls of an expression, in the order in which they are made. -/
def Expr.callSites (bound : Names) : Expr → List CallSite
  | .name _ | .lit _ => []
  | .call callee args =>
    callee.callSites bound ++ Expr.callSitesAll bound args ++ [⟨callee, args, bound⟩]
  | .choose cond onTrue onFalse =>
    cond.callSites bound ++ (onTrue.callSites bound ++ onFalse.callSites bound)

def Expr.callSitesAll (bound : Names) : List Expr → List CallSite
  | [] => []
  | e :: es => e.callSites bound ++ Expr.callSitesAll bound es

end

mutual

/-- The calls of a statement in order, if the names of `bound` are possibly bound before it. -/
def Stmt.callSites (bound : Names) : Stmt → List CallSite
  | .assign _ _ e | .giveBack _ e | .expr _ e => e.callSites bound
  | .ifThen _ cond onTrue => cond.callSites bound ++ Stmt.callSitesAll bound onTrue
  | .ifElse _ cond onTrue onFalse =>
    cond.callSites bound ++ (Stmt.callSitesAll bound onTrue ++ Stmt.callSitesAll bound onFalse)
  | .whileLoop _ cond body =>
    cond.callSites (Names.union bound (assignedBy body)) ++ Stmt.callSitesAll
      (Names.union bound (assignedBy body)) body

/-- What stands behind a statement that returns on every way is dead, and its calls do not count. -/
def Stmt.callSitesAll (bound : Names) : List Stmt → List CallSite
  | [] => []
  | st :: rest =>
    st.callSites bound ++ if st.returns then [] else Stmt.callSitesAll (st.boundAfter bound) rest

end

/-- The calls of a function that are not dead. -/
def Function.callSites (d : Function) : List CallSite := Stmt.callSitesAll d.bound d.body

/-- The call has become this one: it has as many arguments, and a callee that is a name stands for
the global of that name, unless the name is possibly bound. -/
structure CallSite.Becomes (site : CallSite) (call : Operand × List Operand) : Prop where
  args : call.2.length = site.args.length
  callee : ∀ n, site.callee = .name n → n ∉ site.bound → call.1 = .global n

end Source

namespace Chart

variable {c c' c'' : Chart} {line : Nat} {v : Variable} {bound : Names} {n : String}
  {sites sites' : List CallSite}

/-- From one chart to the other the calls are lowered, and no others. -/
def Drafts (sites : List CallSite) (c c' : Chart) : Prop :=
  ∃ calls, c'.graph.calls = c.graph.calls ++ calls ∧ List.Forall₂ CallSite.Becomes sites calls

theorem Drafts.nothing (h : c'.graph.calls = c.graph.calls) : Drafts [] c c' :=
  ⟨[], by rw [h, List.append_nil], .nil⟩

theorem Drafts.trans (h : Drafts sites c c') (h' : Drafts sites' c' c'') :
    Drafts (sites ++ sites') c c'' := by
  obtain ⟨calls, hcalls, hall⟩ := h
  obtain ⟨calls', hcalls', hall'⟩ := h'
  exact ⟨calls ++ calls', by rw [hcalls', hcalls, List.append_assoc], List.rel_append hall hall'⟩

/-- A step without statements may come first. -/
theorem Drafts.after {c₁ : Chart} (h : Drafts sites c₁ c') (hkeeps : c.graph.KeepsBodies c₁.graph)
    (hg : c.graph.Coherent) (hg₁ : c₁.graph.Coherent) : Drafts sites c c' := by
  obtain ⟨calls, hcalls, hall⟩ := h
  exact ⟨calls, by rw [hcalls, hkeeps.calls_eq hg hg₁], hall⟩

/-- A step without statements may come last. -/
theorem Drafts.before {c₁ : Chart} (h : Drafts sites c c₁) (hkeeps : c₁.graph.KeepsBodies c'.graph)
    (hg₁ : c₁.graph.Coherent) (hg' : c'.graph.Coherent) : Drafts sites c c' := by
  obtain ⟨calls, hcalls, hall⟩ := h
  exact ⟨calls, by rw [hkeeps.calls_eq hg₁ hg', hcalls], hall⟩

/-- Lowering has bindings only for the names. -/
def BindsOnly (c : Chart) (bound : Names) : Prop := ∀ n, (c.env.get? n).isSome → n ∈ bound

theorem BindsOnly.of_sub (h : c.BindsOnly bound)
    (hsub : ∀ n op, c'.env.get? n = some op → c.env.get? n = some op) : c'.BindsOnly bound := by
  intro n hn
  obtain ⟨op, hop⟩ := Option.isSome_iff_exists.1 hn
  exact h n (by rw [hsub n op hop]; rfl)

theorem BindsOnly.moved (h : c.BindsOnly bound) {b : BlockId} {closed : Bool} :
    (c'.moved b c.env closed).BindsOnly bound := h

theorem LowersCondition.drafts {op : Operand} (hl : LowersCondition line op c v c') (h : c.Ready)
    (hop : c.Reads c.block op) : Drafts [] c c' := by
  have hcoherent := (hl.computes h hop).sound.coherent
  cases op with
  | var w =>
    obtain ⟨-, rfl⟩ := hl
    exact .nothing rfl
  | const x =>
    obtain ⟨-, rfl⟩ := hl
    exact .nothing
      (by rw [calls_emitted h.sound.coherent h.bare hcoherent]; exact List.append_nil _)
  | global n =>
    obtain ⟨-, rfl⟩ := hl
    exact .nothing
      (by rw [calls_emitted h.sound.coherent h.bare hcoherent]; exact List.append_nil _)

/-! ## Expressions -/

mutual

/-- **The calls of an expression are lowered in order.** A name that is not possibly bound is the
global. -/
theorem LowersExpr.drafts :
    ∀ {e : Expr} {c c' : Chart} {op : Operand}, LowersExpr line e c op c' → c.Ready →
    c.BindsOnly bound → Drafts (e.callSites bound) c c' ∧ ∀ n, e = .name n → n ∉ bound →
    op = .global n
  | .name n, c, c', op, hl, h, hbound => by
    obtain ⟨rfl, rfl⟩ := hl
    refine ⟨.nothing rfl, fun m heq hm => ?_⟩
    cases heq
    have hnone : c'.env.get? n = none :=
      Option.not_isSome_iff_eq_none.1 fun hsome => hm (hbound n hsome)
    rw [Bindings.resolve, hnone]
    rfl
  | .lit x, c, c', op, hl, h, hbound => by
    obtain ⟨-, rfl⟩ := hl
    exact ⟨.nothing rfl, nofun⟩
  | .call callee args, c, c', op, hl, h, hbound => by
    have hcoherent := (LowersExpr.computes hl h).sound.coherent
    obtain ⟨f, c₁, ops, c₂, hf, hops, -, rfl⟩ := hl
    have hcallee := hf.computes h
    have hargs := hops.computes hcallee.isReady
    obtain ⟨hdrafts, hglobal⟩ := LowersExpr.drafts hf h hbound
    obtain ⟨hdrafts', hlength⟩ :=
      LowersExprs.drafts hops hcallee.isReady (hbound.of_sub hcallee.sub)
    refine ⟨(hdrafts.trans hdrafts').trans ⟨[(f, ops)], ?_, .cons ⟨hlength, hglobal⟩ .nil⟩, nofun⟩
    exact calls_emitted hargs.sound.coherent hargs.isReady.bare hcoherent
  | .choose cond onTrue onFalse, c, c', op, hl, h, hbound => by
    have hcoherent := (LowersExpr.computes hl h).sound.coherent
    obtain ⟨p, c₁, v, c₂, x, c₃, y, c₄, hp, hv, hx, hy, rfl, -⟩ := hl
    have hfirst := hp.computes h
    obtain ⟨hcond, hhere⟩ := hfirst.condition hv
    have hready := hcond.isReady
    have hbound₂ := hbound.of_sub hcond.sub
    have h₃ := hx.computes (hready.onTrue hhere)
    have hsecond := hready.onFalse hhere (Continues.armTrue hready hhere h₃.toContinues) h₃.sub
    have h₄ := hy.computes hsecond
    have hforked := (hready.fork hhere).2.sound.coherent
    have hdrafts := (LowersExpr.drafts hp h hbound).1.trans
      (hv.drafts hfirst.isReady (hfirst.reads p List.mem_cons_self))
    -- opening blocks and joining them adds no statement
    have htrue := (LowersExpr.drafts hx (hready.onTrue hhere) hbound₂.moved).1.after (c := c₂)
      (c₂.keepsBodies_forked v)
      hready.sound.coherent hforked
    have hfalse := (LowersExpr.drafts hy hsecond ((hbound₂.moved).of_sub h₃.sub)).1
    rw [List.append_nil] at hdrafts
    refine ⟨hdrafts.trans (htrue.trans ?_), nofun⟩
    exact hfalse.before (c₄.keepsBodies_joinedAll _ _) h₄.sound.coherent hcoherent

theorem LowersExprs.drafts :
    ∀ {es : List Expr} {c c' : Chart} {ops : List Operand}, LowersExprs line es c ops c' →
    c.Ready → c.BindsOnly bound → Drafts (Expr.callSitesAll bound es) c c' ∧ ops.length = es.length
  | [], c, c', ops, hl, h, hbound => by
    obtain ⟨rfl, rfl⟩ := hl
    exact ⟨.nothing rfl, rfl⟩
  | e :: es, c, c', ops, hl, h, hbound => by
    obtain ⟨op, c₁, rest, hop, hrest, rfl⟩ := hl
    have hfirst := hop.computes h
    obtain ⟨hdrafts, -⟩ := LowersExpr.drafts hop h hbound
    obtain ⟨hdrafts', hlength⟩ := LowersExprs.drafts hrest hfirst.isReady (hbound.of_sub hfirst.sub)
    exact ⟨hdrafts.trans hdrafts', congrArg Nat.succ hlength⟩

end

/-! ## Statements -/

/-- After a join there are bindings only for names that are bound on one of the edges. -/
theorem bindsOnly_joinedAll {edges : List Edge} {live : Names}
    (h : ∀ e ∈ edges, ∀ n, (e.env.get? n).isSome → n ∈ bound) (hne : edges ≠ []) :
    (c.joinedAll edges live).BindsOnly bound := by
  rw [joinedAll_of_ne hne]
  intro n hn
  have hsome : ((Edge.bindings edges live c.graph.varCount).get? n).isSome := hn
  have hnames : n ∈ Edge.names edges := by
    rcases get?_threadEnv (Edge.common? edges) live.contains (Edge.names edges)
      [] c.graph.varCount n with
      ⟨hnone, -⟩ | ⟨hmem, -⟩ | ⟨hmem, -⟩
    · rw [Edge.bindings, hnone] at hsome
      cases hsome
    · exact hmem
    · exact hmem
  obtain ⟨e, he, hget⟩ := Edge.mem_names.1 hnames
  exact h e he n hget

theorem BindsOnly.looped (h : c.BindsOnly bound) {body : List Stmt} {live : Names} :
    (c.looped (carriedNames body live)).BindsOnly (Names.union bound (assignedBy body)) := by
  intro n hn
  rw [Names.mem_union]
  have hsome : ((threadEnv (fun _ => none) (fun _ => true) c.graph.varCount c.env
      (carriedNames body live)).get? n).isSome := hn
  rcases get?_threadEnv (fun _ => none) (fun _ => true)
    (carriedNames body live) c.env c.graph.varCount n with
    ⟨hold, -⟩ | ⟨hmem, -⟩ | ⟨hmem, -⟩
  · rw [hold] at hsome
    exact .inl (h n hsome)
  · exact .inr (mem_carriedNames.1 hmem).2
  · exact .inr (mem_carriedNames.1 hmem).2

/-- On a way that leads on, names are possibly bound as they are after its statements. -/
theorem bindsOnly_outs {returns : Bool} {after : Names} (hclosed : c.closed = returns)
    (h : c.closed = false → c.BindsOnly after) {e : Edge} (he : e ∈ c.outs)
    (hn : (e.env.get? n).isSome) : n ∈ (if returns then [] else after) := by
  obtain ⟨hopen, rfl⟩ := mem_outs.1 he
  rw [← hclosed, hopen]
  exact h hopen n hn

mutual

/-- **The calls of a statement are lowered in order**, and after it there are bindings only for
names that are possibly bound there. The induction goes over the tree and carries the names that are
possibly bound along. -/
theorem LowersStmt.drafts :
    ∀ {st : Stmt} {live bound : Names} {c c' : Chart}, LowersStmt live st c c' → c.Ready →
    c.BindsOnly bound → Drafts (st.callSites bound) c c'
      ∧ (c'.closed = false → c'.BindsOnly (st.boundAfter bound))
  | .assign line n e, live, bound, c, c', hl, h, hbound => by
    obtain ⟨op, c₁, hop, rfl⟩ := hl
    refine ⟨(hop.drafts h hbound).1, fun _ m hm => ?_⟩
    rw [Stmt.boundAfter, Names.mem_insert]
    have hsome : ((c₁.env.bind n op).get? m).isSome := hm
    rw [Bindings.get?_bind] at hsome
    split at hsome
    · next heq => exact .inl heq.symm
    · exact .inr (hbound.of_sub (hop.computes h).sub m hsome)
  | .expr line e, live, bound, c, c', hl, h, hbound => by
    obtain ⟨op, hop⟩ := hl
    exact ⟨(hop.drafts h hbound).1, fun _ => hbound.of_sub (hop.computes h).sub⟩
  | .giveBack line e, live, bound, c, c', hl, h, hbound => by
    have hcoherent := (hl.continues h).1.sound.coherent
    obtain ⟨op, c₁, hop, rfl⟩ := hl
    exact ⟨(hop.drafts h hbound).1.before (Graph.keepsBodies_branched ..)
      (hop.computes h).sound.coherent hcoherent, nofun⟩
  | .ifThen line cond onTrue, live, bound, c, c', hl, h, hbound => by
    have hcoherent := (hl.continues h).1.sound.coherent
    obtain ⟨p, c₁, v, c₂, c₃, hp, hv, hbody, rfl⟩ := hl
    have hfirst := hp.computes h
    obtain ⟨hcond, -⟩ := hfirst.condition hv
    have hready := hcond.isReady
    have hbound₂ := hbound.of_sub hcond.sub
    obtain ⟨h₃, hclosed⟩ := hbody.continues hready.only
    have hdrafts :=
      (hp.drafts h hbound).1.trans (hv.drafts hfirst.isReady (hfirst.reads p List.mem_cons_self))
    obtain ⟨htrue, hafter⟩ := LowersBody.drafts hbody hready.only hbound₂.moved
    have htrue := (htrue.after (c := c₂) c₂.keepsBodies_openedHere hready.sound.coherent
      hready.sound.openedHere.coherent).before
        (c₃.keepsBodies_joinedAll _ _) h₃.sound.coherent hcoherent
    rw [List.append_nil] at hdrafts
    refine ⟨hdrafts.trans htrue, fun _ => bindsOnly_joinedAll (fun e he n hn => ?_) nofun⟩
    rw [Stmt.boundAfter, Names.mem_union]
    rcases List.mem_cons.1 he with rfl | he
    · exact .inl (hbound₂ n hn)
    · exact .inr (bindsOnly_outs hclosed hafter he hn)
  | .ifElse line cond onTrue onFalse, live, bound, c, c', hl, h, hbound => by
    have hcoherent := (hl.continues h).1.sound.coherent
    obtain ⟨p, c₁, v, c₂, c₃, c₄, hp, hv, htrue, hfalse, rfl⟩ := hl
    have hfirst := hp.computes h
    obtain ⟨hcond, hhere⟩ := hfirst.condition hv
    have hready := hcond.isReady
    have hbound₂ := hbound.of_sub hcond.sub
    obtain ⟨h₃, hclosed₃⟩ := htrue.continues (hready.onTrue hhere)
    have hsecond := hready.onFalse hhere (Continues.armTrue hready hhere h₃) fun _ _ hop => hop
    obtain ⟨h₄, hclosed₄⟩ := hfalse.continues hsecond
    have hforked := (hready.fork hhere).2.sound.coherent
    have hdrafts :=
      (hp.drafts h hbound).1.trans (hv.drafts hfirst.isReady (hfirst.reads p List.mem_cons_self))
    obtain ⟨hdrafts₃, hafter₃⟩ := LowersBody.drafts htrue (hready.onTrue hhere) hbound₂.moved
    obtain ⟨hdrafts₄, hafter₄⟩ := LowersBody.drafts hfalse hsecond hbound₂.moved
    have htrue := hdrafts₃.after (c := c₂) (c₂.keepsBodies_forked v) hready.sound.coherent hforked
    have hfalse : Drafts _ c₃ _ :=
      hdrafts₄.before (c₄.keepsBodies_joinedAll _ _) h₄.sound.coherent hcoherent
    rw [List.append_nil] at hdrafts
    refine ⟨hdrafts.trans (htrue.trans hfalse),
      fun hopen => bindsOnly_joinedAll (fun e he n hn => ?_) fun hnil => ?_⟩
    · rw [Stmt.boundAfter, Names.mem_union]
      exact (List.mem_append.1 he).imp (bindsOnly_outs hclosed₃ hafter₃ · hn)
        (bindsOnly_outs hclosed₄ hafter₄ · hn)
    · rw [closed_joinedAll, hnil] at hopen
      cases hopen
  | .whileLoop line cond body, live, bound, c, c', hl, h, hbound => by
    have hcoherent := (hl.continues h).1.sound.coherent
    obtain ⟨p, c₁, v, c₂, c₃, hp, hv, hbody, rfl⟩ := hl
    have hlooped := (h.looped (carriedNames body (insideNames cond body live))).1
    have hhead := hlooped.ready rfl
    have hinside : (c.looped (carriedNames body (insideNames cond body live))).BindsOnly
        (Names.union bound (assignedBy body)) := hbound.looped
    have hfirst := hp.computes hhead
    obtain ⟨hcond, hhere⟩ := hfirst.condition hv
    have hready := hcond.isReady
    have hbound₂ := hinside.of_sub hcond.sub
    have h₃ := (hbody.continues (hready.onTrue hhere)).1
    have hforked := (hready.fork hhere).2.sound.coherent
    have hdrafts := (hp.drafts hhead hinside).1.trans
      (hv.drafts hfirst.isReady (hfirst.reads p List.mem_cons_self))
    have hdrafts₃ := (LowersBody.drafts hbody (hready.onTrue hhere) hbound₂.moved).1.after (c := c₂)
      (c₂.keepsBodies_forked v) hready.sound.coherent hforked
    rw [List.append_nil] at hdrafts
    -- the calls of the condition and of the body stand between the head and the way back
    have hloop := (hdrafts.trans hdrafts₃).after (c := c)
      (c.keepsBodies_met ..) h.sound.coherent hhead.sound.coherent
    exact ⟨hloop.before (c₃.keepsBodies_ledBack _ _) h₃.sound.coherent hcoherent, fun _ => hbound₂⟩

/-- The same for statements in order. -/
theorem LowersBody.drafts :
    ∀ {body : List Stmt} {live bound : Names} {c c' : Chart}, LowersBody live body c c' →
    c.Ready → c.BindsOnly bound → Drafts (Stmt.callSitesAll bound body) c c'
      ∧ (c'.closed = false → c'.BindsOnly (Stmt.boundAfterAll bound body))
  | [], live, bound, c, c', hl, h, hbound => by
    obtain rfl := hl
    exact ⟨.nothing rfl, fun _ => hbound⟩
  | st :: rest, live, bound, c, c', hl, h, hbound => by
    obtain ⟨c₁, hfirst, hrest⟩ := hl
    obtain ⟨h₁, hclosed⟩ := hfirst.continues h
    obtain ⟨hdrafts, hafter⟩ := LowersStmt.drafts hfirst h hbound
    rw [Stmt.callSitesAll, ← hclosed]
    by_cases hopen : c₁.closed = true
    · rw [if_pos hopen] at hrest ⊢
      obtain rfl := hrest
      rw [List.append_nil]
      exact ⟨hdrafts, fun hfalse => absurd (hopen.symm.trans hfalse) nofun⟩
    · have hopen : c₁.closed = false := Bool.eq_false_iff.2 hopen
      rw [if_neg (Bool.eq_false_iff.1 hopen)] at hrest ⊢
      obtain ⟨hdrafts', hafter'⟩ := LowersBody.drafts hrest (h₁.ready hopen) (hafter hopen)
      exact ⟨hdrafts.trans hdrafts', hafter'⟩

end

/-! ## Functions -/

theorem callSitesAll_append (bound : Names) (before after : List Stmt) :
    Stmt.callSitesAll bound (before ++ after)
      = Stmt.callSitesAll bound before ++ if Stmt.returnsAll before then []
        else Stmt.callSitesAll (Stmt.boundAfterAll bound before) after := by
  induction before generalizing bound with
  | nil => rfl
  | cons st rest ih =>
    rw [List.cons_append, Stmt.callSitesAll, Stmt.callSitesAll, Stmt.returnsAll,
      Stmt.boundAfterAll, ih]
    cases st.returns with
    | false => rw [if_neg Bool.false_ne_true, if_neg Bool.false_ne_true, Bool.false_or,
      List.append_assoc]
    | true => rw [if_pos rfl, if_pos rfl, Bool.true_or, if_pos rfl, List.append_nil,
      List.append_nil]

/-- The value at the end of a body has its calls where it is given back. -/
theorem callSitesAll_splitResult (bound : Names) (body : List Stmt) :
    Stmt.callSitesAll bound body = Stmt.callSitesAll bound (splitResult body).1
      ++ if Stmt.returnsAll (splitResult body).1 then []
        else (lastReturn (splitResult body).2).callSites
          (Stmt.boundAfterAll bound (splitResult body).1) := by
  unfold splitResult
  split
  · next line e hlast =>
    obtain ⟨front, rfl⟩ := List.getLast?_eq_some_iff.1 hlast
    have hend : Stmt.callSitesAll (Stmt.boundAfterAll bound front) [.expr line e]
        = e.callSites (Stmt.boundAfterAll bound front) := by
      rw [Stmt.callSitesAll, Stmt.callSitesAll, ite_self, List.append_nil, Stmt.callSites]
    rw [callSitesAll_append, List.dropLast_concat, hend, lastReturn, Stmt.callSites]
  · rw [lastReturn, Stmt.callSites, Expr.callSites, ite_self, List.append_nil]

theorem bindsOnly_start (d : Source.Function) (file : String) :
    (start d.params file).BindsOnly d.bound := by
  intro n hn
  have hsome : ((threadEnv (fun _ => none) (fun _ => true) 1 [] d.params).get? n).isSome := hn
  rw [Function.bound, Names.mem_union]
  rcases get?_threadEnv (fun _ => none) (fun _ => true) d.params [] 1 n with
    ⟨hnone, -⟩ | ⟨hmem, -⟩ | ⟨hmem, -⟩
  · rw [hnone] at hsome
    cases hsome
  · exact .inr hmem
  · exact .inr hmem

theorem calls_start (names : List String) (file : String) :
    (start names file).graph.calls = [] := by
  have hkeeps := Graph.empty.keepsBodies_withParams .entry (names.length + 1)
  have hsame : (start names file).graph.calls = Graph.empty.calls :=
    hkeeps.calls_eq Graph.coherent_empty (sound_start names file).coherent
  rw [hsame]
  rfl

/-- **All calls of a function that are not dead are lowered in order**, and its graph has no
others. -/
theorem Lowers.calls {d : Source.Function} {file : String} (h : Lowers d file c) :
    List.Forall₂ CallSite.Becomes d.callSites c.graph.calls := by
  have hdrafts : Drafts d.callSites (start d.params file) c := by
    obtain ⟨c₁, hbody, hend⟩ := h.whole
    obtain ⟨h₁, hclosed⟩ := hbody.continues (ready_start d.params file)
    obtain ⟨hdrafts, hafter⟩ := hbody.drafts (ready_start d.params file) (bindsOnly_start d file)
    rw [Function.callSites, callSitesAll_splitResult, ← hclosed]
    by_cases hopen : c₁.closed = true
    · rw [if_pos hopen] at hend ⊢
      obtain rfl := hend
      rw [List.append_nil]
      exact hdrafts
    · have hopen : c₁.closed = false := Bool.eq_false_iff.2 hopen
      rw [if_neg (Bool.eq_false_iff.1 hopen)] at hend ⊢
      exact hdrafts.trans (hend.drafts (h₁.ready hopen) (hafter hopen)).1
  obtain ⟨calls, hcalls, hall⟩ := hdrafts
  rw [hcalls, calls_start, List.nil_append]
  exact hall

end Chart

end Interpose
