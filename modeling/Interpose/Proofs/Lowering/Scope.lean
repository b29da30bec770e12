import Interpose.Proofs.Lowering.Total
import Interpose.Proofs.Source.Literals

/-!
# Names that lowering knows

At every place of a function lowering has a binding for exactly those names that the text has as
possibly bound there, as far as they are still read. This needs the edges of a join to agree on what
they have in common: an operand that compares equal on all edges is the same on all, because
literals are plain.
-/

set_option autoImplicit false

namespace Interpose

open Source

/-! ## Plain operands -/

/-- A constant is plain. -/
def Operand.IsPlain : Operand → Prop
  | .const x => x.IsPlain
  | _ => True

theorem Operand.IsPlain.beq_self {op : Operand} (h : op.IsPlain) : (op == op) = true := by
  cases op with
  | var v => exact beq_self_eq_true v
  | const x => exact Value.IsPlain.beq_self h
  | global n => exact beq_self_eq_true n

theorem Operand.IsPlain.eq_of_beq {op op' : Operand} (h : op.IsPlain) (h' : op'.IsPlain)
    (heq : (op == op') = true) : op = op' := by
  cases op with
  | var v => cases op' with | var v' => rw [LawfulBEq.eq_of_beq (a := v) heq] | _ => cases heq
  | const x =>
    cases op' with
    | const x' => rw [Value.IsPlain.eq_of_beq h h' heq]
    | _ => cases heq
  | global n => cases op' with | global n' => rw [LawfulBEq.eq_of_beq (a := n) heq] | _ => cases heq

/-- Every name is bound to a plain operand. -/
def Bindings.IsPlain (env : Bindings) : Prop := ∀ n op, env.get? n = some op → op.IsPlain

theorem Bindings.IsPlain.resolve {env : Bindings} (h : env.IsPlain) (n : String) :
    (env.resolve n).IsPlain := by
  unfold Bindings.resolve
  rcases hn : env.get? n with _ | op
  · trivial
  · exact h n op hn

theorem Bindings.IsPlain.bind {env : Bindings} (h : env.IsPlain) {op : Operand} (hop : op.IsPlain)
    (name : String) : (env.bind name op).IsPlain := by
  intro n op' hget
  rw [Bindings.get?_bind] at hget
  by_cases hn : name = n
  · rw [if_pos hn] at hget
    exact Option.some.inj hget ▸ hop
  · rw [if_neg hn] at hget
    exact h n op' hget

/-- The names of bindings are those that are bound. -/
theorem Bindings.mem_names {env : Bindings} {n : String} : n ∈ env.names ↔ (env.get? n).isSome := by
  induction env with
  | nil => exact ⟨nofun, nofun⟩
  | cons p rest ih =>
    obtain ⟨m, op⟩ := p
    unfold Bindings.names at ih ⊢
    rw [List.map_cons, List.mem_cons, ih, Bindings.get?]
    by_cases hmn : m = n
    · rw [if_pos hmn]
      exact ⟨fun _ => rfl, fun _ => .inl hmn.symm⟩
    · rw [if_neg hmn]
      exact ⟨fun h => h.resolve_left (Ne.symm hmn), .inr⟩

/-! ## What edges have in common -/

namespace Edge

variable {edges : List Edge} {n : String} {op : Operand}

theorem mem_names : n ∈ Edge.names edges ↔ ∃ e ∈ edges, (e.env.get? n).isSome := by
  have hfold : ∀ (edges : List Edge) (ns : Names),
      n ∈ edges.foldl (fun ns e => Names.union ns e.env.names) ns
        ↔ n ∈ ns ∨ ∃ e ∈ edges, (e.env.get? n).isSome := by
    intro edges
    induction edges with
    | nil => simp
    | cons e es ih =>
      intro ns
      rw [List.foldl_cons, ih, Names.mem_union, Bindings.mem_names,
        List.exists_mem_cons_iff, or_assoc]
  rw [names, hfold]
  simp

/-- A plain operand that a name stands for on all edges is common to them. -/
theorem common?_eq_some (hne : edges ≠ []) (hop : op.IsPlain)
    (h : ∀ e ∈ edges, e.env.get? n = some op) : common? edges n = some op := by
  obtain ⟨e, es, rfl⟩ := List.exists_cons_of_ne_nil hne
  refine Option.filter_eq_some_iff.2 ⟨h e List.mem_cons_self, List.all_eq_true.2 fun e' he' => ?_⟩
  rw [h e' he']
  exact hop.beq_self

/-- A common operand is what the name stands for on each edge, if all of these are plain. -/
theorem get?_of_common? (hplain : ∀ e ∈ edges, e.env.IsPlain) (h : common? edges n = some op)
    {e : Edge} (he : e ∈ edges) : e.env.get? n = some op := by
  obtain ⟨hhead, hall⟩ := Option.filter_eq_some_iff.1 h
  have hop : op.IsPlain := by
    obtain ⟨e', he', hget⟩ := Option.bind_eq_some_iff.1 hhead
    exact hplain e' (List.mem_of_mem_head? he') n op hget
  have heq := List.all_eq_true.1 hall e he
  rcases hget : e.env.get? n with _ | op'
  · rw [hget] at heq
    cases heq
  · rw [hget] at heq
    exact congrArg some ((hplain e he n op' hget).eq_of_beq hop heq)

end Edge

namespace Chart

variable {c c' : Chart} {line : Nat} {op : Operand} {live bound : Names}

/-! ## Expressions bind no names -/

theorem env_condition {v : Variable} (h : LowersCondition line op c v c') : c'.env = c.env := by
  cases op with
  | var w =>
    obtain ⟨-, rfl⟩ := h
    rfl
  | const x =>
    obtain ⟨-, rfl⟩ := h
    rfl
  | global n =>
    obtain ⟨-, rfl⟩ := h
    rfl

/-- Where nothing is read later, a join of edges with the same plain bindings has these bindings. -/
theorem get?_joined_same {edges : List Edge} (hne : edges ≠ []) {env : Bindings}
    (henv : env.IsPlain) (h : ∀ e ∈ edges, ∀ n, e.env.get? n = env.get? n) (n : String) :
    (c.joinedAll edges []).env.get? n = env.get? n := by
  have hplain : ∀ e ∈ edges, e.env.IsPlain :=
    fun e he m op hget => henv m op ((h e he m).symm.trans hget)
  obtain ⟨e, he⟩ := List.exists_mem_of_ne_nil _ hne
  rw [joinedAll_of_ne hne]
  rcases get?_threadEnv (Edge.common? edges) (List.contains []) (Edge.names edges) []
    c.graph.varCount n with ⟨hget, hnames⟩ | ⟨-, op, hcommon, hget⟩ | ⟨-, -, hkeep, -⟩
  · have hget : (c.joined edges []).env.get? n = none := hget
    rw [hget]
    rcases hn : env.get? n with _ | op
    · rfl
    · -- a name that is bound on the edges has a common operand
      have hall : ∀ e ∈ edges, e.env.get? n = some op := fun e he => (h e he n).trans hn
      have hmem : n ∈ Edge.names edges := Edge.mem_names.2 ⟨e, he, by rw [hall e he]; rfl⟩
      cases (Edge.common?_eq_some hne (henv n op hn) hall).symm.trans (hnames hmem).1
  · have hget : (c.joined edges []).env.get? n = some op := hget
    rw [hget, ← h e he n, Edge.get?_of_common? hplain hcommon he]
  · cases hkeep

mutual

/-- An expression leaves the names as they are, and is worth a plain operand. -/
theorem LowersExpr.get?_env :
    ∀ {e : Expr} {c c' : Chart} {op : Operand}, LowersExpr line e c op c' →
    e.IsPlain → c.env.IsPlain → (∀ n, c'.env.get? n = c.env.get? n) ∧ op.IsPlain
  | .name n, c, c', op, hl, _, h => by
    obtain ⟨rfl, rfl⟩ := hl
    exact ⟨fun _ => rfl, h.resolve n⟩
  | .lit x, c, c', op, hl, he, _ => by
    obtain ⟨rfl, rfl⟩ := hl
    exact ⟨fun _ => rfl, he⟩
  | .call callee args, c, c', op, hl, he, h => by
    obtain ⟨f, c₁, ops, c₂, hf, hops, rfl, rfl⟩ := hl
    obtain ⟨henv₁, -⟩ := LowersExpr.get?_env hf he.1 h
    have henv₂ := LowersExprs.get?_env hops he.2 fun n op hget => h n op ((henv₁ n).symm.trans hget)
    exact ⟨fun n => (henv₂ n).trans (henv₁ n), trivial⟩
  | .choose cond onTrue onFalse, c, c', op, hl, he, h => by
    obtain ⟨p, c₁, v, c₂, x, c₃, y, c₄, hp, hv, hx, hy, rfl, hop⟩ := hl
    obtain ⟨hcond, htrue, hfalse⟩ := he
    have plain : ∀ {c' : Chart}, (∀ n, c'.env.get? n = c.env.get? n) → c'.env.IsPlain :=
      fun henv n op hget => h n op ((henv n).symm.trans hget)
    obtain ⟨henv₁, -⟩ := LowersExpr.get?_env hp hcond h
    have henv₂ : ∀ n, c₂.env.get? n = c.env.get? n := fun n => by rw [env_condition hv, henv₁]
    have henv₃ : ∀ n, c₃.env.get? n = c.env.get? n := fun n =>
      ((LowersExpr.get?_env hx htrue (plain henv₂)).1 n).trans (henv₂ n)
    have henv₄ : ∀ n, c₄.env.get? n = c.env.get? n := fun n =>
      ((LowersExpr.get?_env hy hfalse (plain henv₃)).1 n).trans (henv₃ n)
    -- no name is read after the join of the two values, so that none gets a parameter
    have hne : [c₃.out (some x), c₄.out (some y)] ≠ [] := nofun
    refine ⟨get?_joined_same hne h fun e he => ?_, ?_⟩
    · rcases List.mem_cons.1 he with rfl | he
      · exact henv₃
      · obtain rfl := List.mem_singleton.1 he
        exact henv₄
    · have hvalued : Edge.outcome [c₃.out (some x), c₄.out (some y)] [] c₄.graph.varCount
          = some (.var ⟨c₄.graph.varCount
            + (Edge.parameters [c₃.out (some x), c₄.out (some y)] []).length⟩) := rfl
      cases hop.trans hvalued
      trivial

theorem LowersExprs.get?_env : ∀ {es : List Expr} {c c' : Chart} {ops : List Operand},
    LowersExprs line es c ops c' → Expr.ArePlain es → c.env.IsPlain →
    ∀ n, c'.env.get? n = c.env.get? n
  | [], c, c', ops, hl, _, _ => by
    obtain ⟨-, rfl⟩ := hl
    exact fun _ => rfl
  | e :: es, c, c', ops, hl, he, h => by
    obtain ⟨op, c₁, rest, hop, hrest, -⟩ := hl
    obtain ⟨henv₁, -⟩ := LowersExpr.get?_env hop he.1 h
    have henv₂ :=
      LowersExprs.get?_env hrest he.2 fun n op hget => h n op ((henv₁ n).symm.trans hget)
    exact fun n => (henv₂ n).trans (henv₁ n)

end

/-! ## Names that are possibly bound -/

/-- Of the names that are read later, the chart has a binding for those that are possibly bound. -/
structure Tracks (c : Chart) (live bound : Names) : Prop where
  plain : c.env.IsPlain
  bound : ∀ n ∈ live, n ∈ bound ↔ (c.env.get? n).isSome

namespace Tracks

theorem mono {live' : Names} (h : c.Tracks live bound) (hlive : ∀ n ∈ live', n ∈ live) :
    c.Tracks live' bound := ⟨h.plain, fun n hn => h.bound n (hlive n hn)⟩

/-- Tracking is a matter of the bindings alone. -/
theorem moved (h : c.Tracks live bound) {b : BlockId} {closed : Bool} :
    (c'.moved b c.env closed).Tracks live bound := ⟨h.plain, h.bound⟩

theorem of_env (h : c.Tracks live bound) (henv : ∀ n, c'.env.get? n = c.env.get? n) :
    c'.Tracks live bound :=
  ⟨fun n op hget => h.plain n op ((henv n).symm.trans hget), fun n hn => by rw [henv, h.bound n hn]⟩

/-- After a join a name is possibly bound if it is on one of the edges. -/
theorem joined {edges : List Edge} (hplain : ∀ e ∈ edges, e.env.IsPlain)
    (h : ∀ n ∈ live, n ∈ bound ↔ ∃ e ∈ edges, (e.env.get? n).isSome) :
    (c.joined edges live).Tracks live bound where
  plain n op hget := by
    rcases get?_threadEnv (Edge.common? edges) live.contains (Edge.names edges) []
      c.graph.varCount n with ⟨hold, -⟩ | ⟨-, op', hcommon, hnew⟩ | ⟨-, -, -, j, -, hnew⟩
    · cases hold.symm.trans hget
    · obtain rfl := Option.some.inj (hnew.symm.trans hget)
      obtain ⟨e, he, hget⟩ := Option.bind_eq_some_iff.1 (Option.filter_eq_some_iff.1 hcommon).1
      exact hplain e (List.mem_of_mem_head? he) n op' hget
    · obtain rfl := Option.some.inj (hnew.symm.trans hget)
      trivial
  bound n hn := by
    rw [h n hn, ← Edge.mem_names]
    rcases get?_threadEnv (Edge.common? edges) live.contains (Edge.names edges) []
      c.graph.varCount n with ⟨hget, hnames⟩ | ⟨hmem, op, -, hget⟩ | ⟨hmem, -, -, j, -, hget⟩
    · have hget : (c.joined edges live).env.get? n = none := hget
      rw [hget]
      refine ⟨fun hmem => ?_, nofun⟩
      -- what is read later is kept
      have hkeep : live.contains n = false := (hnames hmem).2
      rw [List.contains_iff_mem.2 hn] at hkeep
      cases hkeep
    · have hget : (c.joined edges live).env.get? n = some op := hget
      rw [hget]
      exact ⟨fun _ => rfl, fun _ => hmem⟩
    · have hget : (c.joined edges live).env.get? n = some (.var ⟨c.graph.varCount + j⟩) := hget
      rw [hget]
      exact ⟨fun _ => rfl, fun _ => hmem⟩

theorem assign (h : c.Tracks live bound) {op : Operand} (hop : op.IsPlain) (n : String)
    (b : BlockId) (closed : Bool) :
    (c.moved b (c.env.bind n op) closed).Tracks live (Names.insert n bound) := by
  refine ⟨h.plain.bind hop n, fun m hm => ?_⟩
  have hget : (c.moved b (c.env.bind n op) closed).env.get? m = if n = m
      then some op else c.env.get? m :=
    Bindings.get?_bind _ _ _ _
  rw [hget, Names.mem_insert]
  by_cases hnm : n = m
  · rw [if_pos hnm]
    exact ⟨fun _ => rfl, fun _ => .inl hnm.symm⟩
  · rw [if_neg hnm, ← h.bound m hm]
    exact ⟨fun h => h.resolve_left (Ne.symm hnm), .inr⟩

/-- In a loop also the names that its body assigns are possibly bound. -/
theorem looped {body : List Stmt} (h : c.Tracks live bound) :
    (c.looped (carriedNames body live)).Tracks live (Names.union bound (assignedBy body)) := by
  have hcases :=
    get?_threadEnv (fun _ => none) (fun _ => true) (carriedNames body live) c.env c.graph.varCount
  refine ⟨fun n op hget => ?_, fun n hn => ?_⟩
  · rcases hcases n with ⟨hold, -⟩ | ⟨-, _, hnone, -⟩ | ⟨-, -, -, j, -, hnew⟩
    · exact h.plain n op (hold.symm.trans hget)
    · cases hnone
    · obtain rfl := Option.some.inj (hnew.symm.trans hget)
      trivial
  · have hcarried : n ∈ carriedNames body live ↔ n ∈ assignedBy body := by
      rw [carriedNames, List.mem_filter]
      exact and_iff_left (List.contains_iff_mem.2 hn)
    rw [Names.mem_union, ← hcarried]
    rcases hcases n with ⟨hold, hnot⟩ | ⟨-, _, hnone, -⟩ | ⟨hmem, -, -, j, -, hnew⟩
    · have hold : (c.looped (carriedNames body live)).env.get? n = c.env.get? n := hold
      rw [hold, h.bound n hn]
      exact or_iff_left fun hmem => by cases (hnot hmem).2
    · cases hnone
    · have hnew : (c.looped (carriedNames body live)).env.get? n
          = some (.var ⟨c.graph.varCount + j⟩) := hnew
      rw [hnew]
      exact ⟨fun _ => rfl, fun _ => .inr hmem⟩

end Tracks

/-! ## Statements -/

/-- A name is possibly bound after ways that meet, if it is after one of those that have not
returned. -/
theorem mem_ends_iff {returns : Bool} {names : Names} {n : String} (hclosed : c.closed = returns)
    (h : c.closed = false → (n ∈ names ↔ (c.env.get? n).isSome)) :
    n ∈ (if returns then [] else names) ↔ ∃ e ∈ c.outs, (e.env.get? n).isSome := by
  subst hclosed
  rcases hopen : c.closed with _ | _
  · rw [if_neg Bool.false_ne_true, h hopen]
    constructor
    · exact fun hget => ⟨_, mem_outs.2 ⟨hopen, rfl⟩, hget⟩
    · rintro ⟨e, he, hget⟩
      rw [(mem_outs.1 he).2] at hget
      exact hget
  · rw [if_pos rfl]
    refine ⟨fun hn => absurd hn List.not_mem_nil, ?_⟩
    rintro ⟨e, he, -⟩
    cases hopen.symm.trans (mem_outs.1 he).1

mutual

/-- **After a statement** lowering has bindings for the names that are possibly bound there. -/
theorem LowersStmt.tracks :
    ∀ {st : Stmt} {live bound : Names} {c c' : Chart}, LowersStmt live st c c' →
    c.Ready → st.IsPlain → c.Tracks (Names.union (st.addReads []) live) bound → c'.closed = false →
    c'.Tracks live (st.boundAfter bound)
  | .assign line n e, live, bound, c, c', hl, h, hst, ht, hopen => by
    obtain ⟨op, c₁, hop, rfl⟩ := hl
    obtain ⟨henv, hplain⟩ := hop.get?_env hst ht.plain
    exact ((ht.of_env henv).mono fun n hn => (Names.mem_union ..).2 (.inr hn)).assign hplain n _ _
  | .expr line e, live, bound, c, c', hl, h, hst, ht, hopen => by
    obtain ⟨op, hop⟩ := hl
    exact (ht.of_env (hop.get?_env hst ht.plain).1).mono fun n hn =>
      (Names.mem_union ..).2 (.inr hn)
  | .giveBack line e, live, bound, c, c', hl, h, hst, ht, hopen => by
    obtain ⟨op, c₁, hop, rfl⟩ := hl
    cases hopen
  | .ifThen line cond onTrue, live, bound, c, c', hl, h, hst, ht, hopen => by
    obtain ⟨p, c₁, v, c₂, c₃, hp, hv, hbody, rfl⟩ := hl
    have hcond := ((hp.computes h).condition hv).1
    have ht₂ : c₂.Tracks (Names.union (Stmt.addReads (.ifThen line cond onTrue) []) live) bound :=
      ht.of_env fun n => by rw [env_condition hv, (hp.get?_env hst.1 ht.plain).1]
    have hclosed := (hbody.continues hcond.isReady.only).2
    have hbodyTracks := ht₂.mono fun n hn => Stmt.mem_live_ifThen.2 (.inr hn)
    have ht₃ :=
      fun hopen₃ => LowersBody.tracks hbody hcond.isReady.only hst.2 hbodyTracks.moved hopen₃
    -- the way past the arm comes to the join too, and so what was bound before is possibly bound
    -- behind
    have hne : c₂.skip v :: c₃.outs ≠ [] := nofun
    rw [joinedAll_of_ne hne]
    refine .joined (fun e he => ?_) fun n hn => ?_
    · rcases List.mem_cons.1 he with rfl | he
      · exact ht₂.plain
      · obtain ⟨hopen₃, rfl⟩ := mem_outs.1 he
        exact (ht₃ hopen₃).plain
    · rw [List.exists_mem_cons_iff, Stmt.boundAfter, Names.mem_union,
        ht₂.bound n ((Names.mem_union ..).2 (.inr hn)), mem_ends_iff hclosed fun hopen₃ =>
          (ht₃ hopen₃).bound n hn]
      rfl
  | .ifElse line cond onTrue onFalse, live, bound, c, c', hl, h, hst, ht, hopen => by
    obtain ⟨p, c₁, v, c₂, c₃, c₄, hp, hv, htrue, hfalse, rfl⟩ := hl
    obtain ⟨hcond, hhere⟩ := (hp.computes h).condition hv
    have hready := hcond.isReady
    have ht₂ : c₂.Tracks (Names.union (Stmt.addReads (.ifElse line cond onTrue onFalse) []) live)
        bound :=
      ht.of_env fun n => by rw [env_condition hv, (hp.get?_env hst.1 ht.plain).1]
    have htrueTracks := ht₂.mono fun n hn => Stmt.mem_live_ifElse.2 (.inr (.inl hn))
    have hfalseTracks := ht₂.mono fun n hn => Stmt.mem_live_ifElse.2 (.inr (.inr hn))
    obtain ⟨h₃, hclosed₃⟩ := htrue.continues (hready.onTrue hhere)
    have hsecond := hready.onFalse hhere (Continues.armTrue hready hhere h₃) fun _ _ hop => hop
    have hclosed₄ := (hfalse.continues hsecond).2
    have ht₃ :=
      fun hopen₃ => LowersBody.tracks htrue (hready.onTrue hhere) hst.2.1 htrueTracks.moved hopen₃
    have ht₄ := fun hopen₄ => LowersBody.tracks hfalse hsecond hst.2.2 hfalseTracks.moved hopen₄
    -- if both arms return, the chart is closed behind them
    have hne : c₃.outs ++ c₄.outs ≠ [] := fun hnil => by
      rw [closed_joinedAll, hnil] at hopen
      cases hopen
    rw [joinedAll_of_ne hne]
    refine .joined (fun e he => ?_) fun n hn => ?_
    · rcases List.mem_append.1 he with he | he
      · obtain ⟨hopen₃, rfl⟩ := mem_outs.1 he
        exact (ht₃ hopen₃).plain
      · obtain ⟨hopen₄, rfl⟩ := mem_outs.1 he
        exact (ht₄ hopen₄).plain
    · simp only [List.mem_append, or_and_right, exists_or]
      rw [Stmt.boundAfter, Names.mem_union, mem_ends_iff hclosed₃ fun hopen₃ =>
        (ht₃ hopen₃).bound n hn,
        mem_ends_iff hclosed₄ fun hopen₄ => (ht₄ hopen₄).bound n hn]
  | .whileLoop line cond body, live, bound, c, c', hl, h, hst, ht, hopen => by
    obtain ⟨p, c₁, v, c₂, c₃, hp, hv, hbody, rfl⟩ := hl
    -- what holds at the head holds in every round, so that the body need not be looked at
    have hhead : (c.looped (carriedNames body (insideNames cond body live))).Tracks
        (insideNames cond body live) (Names.union bound (assignedBy body)) :=
          (ht.mono fun n hn => Stmt.mem_live_whileLoop.2 hn).looped
    have ht₂ : c₂.Tracks (insideNames cond body live) (Names.union bound (assignedBy body)) :=
      hhead.of_env fun n => by rw [env_condition hv, (hp.get?_env hst.1 hhead.plain).1]
    exact (ht₂.mono fun n hn => (Names.mem_union ..).2 (.inr hn)).moved

/-- The same for statements in order. -/
theorem LowersBody.tracks :
    ∀ {body : List Stmt} {live bound : Names} {c c' : Chart}, LowersBody live body c c' →
    c.Ready → Stmt.ArePlain body → c.Tracks (Names.union (readsOf body) live) bound →
    c'.closed = false →
    c'.Tracks live (Stmt.boundAfterAll bound body)
  | [], live, bound, c, c', hl, _, _, ht, _ => by
    obtain rfl := hl
    exact ht.mono fun n hn => (Names.mem_union ..).2 (.inr hn)
  | st :: rest, live, bound, c, c', hl, h, hst, ht, hopen => by
    obtain ⟨c₁, hfirst, hrest⟩ := hl
    have ht₁ := LowersStmt.tracks hfirst h hst.1 (ht.mono fun n hn => mem_live_cons.2 hn)
    rcases hopen₁ : c₁.closed with _ | _
    · rw [if_neg (by rw [hopen₁]; exact nofun)] at hrest
      have hready := (hfirst.continues h).1.ready hopen₁
      have ht₂ := LowersBody.tracks hrest hready hst.2 (ht₁ hopen₁) hopen
      exact ht₂
    · rw [if_pos hopen₁] at hrest
      obtain rfl := hrest
      cases hopen.symm.trans hopen₁

end

end Chart

end Interpose
