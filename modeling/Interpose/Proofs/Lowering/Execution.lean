import Interpose.Proofs.Lowering.Evaluation

/-!
# Statements do what they are lowered to

The store that the statements of a tree lead to is what the names stand for where the graph's run
has come to the end of what they were lowered to. A return ends both runs with the same value.

A loop comes back to its head as often as the run has it, so there the proof is by induction on the
rounds that the loop may still go. The names that its body assigns are passed to the head each time,
and all others stand for what they stood for before the loop.
-/

set_option autoImplicit false

namespace Interpose

open Source

namespace Pairing

variable {σ : Type} {w : Pairing σ} {c c' : Chart} {m m' : Registers} {fuel fuel' : Option Nat}
  {live bound assigned : Names} {store store' : Store} {b : BlockId}

/-! ## Going through statements -/

/-- All names are in the table of globals. -/
def Grants (w : Pairing σ) (names : Names) : Prop := ∀ n ∈ names, (w.globals n).isSome

theorem Grants.mono {names names' : Names} (h : w.Grants names) (hsub : ∀ n ∈ names', n ∈ names) :
    w.Grants names' := fun n hn => h n (hsub n hn)

theorem Grants.supplies {e : Expr} (h : w.Grants (e.globals bound))
    (hlive : ∀ n ∈ e.reads, n ∈ live) : w.Supplies e.reads live bound :=
  fun n hn => ⟨hlive n hn, fun hnot => h n (Expr.mem_globals.2 ⟨hn, hnot⟩)⟩

/-- Both runs have gone from a chart to another, and only some names were assigned. -/
structure Through (w : Pairing σ) (c : Chart) (m : Registers) (fuel : Option Nat) (store : Store)
    (assigned : Names) (c' : Chart) (m' : Registers) (fuel' : Option Nat) (live bound : Names)
    (store' : Store) : Prop where
  later : Later c.graph.varCount m fuel m' fuel'
  arrived : w.At c' m' fuel' live bound store'
  kept : ∀ n, n ∉ assigned → store' n = store n

/-- The statements can be gone through from `c` to `c'`: if what comes after them in the tree agrees
with what comes after them in the graph, then so it does with the statements before it. -/
def Passes (w : Pairing σ) (c : Chart) (m : Registers) (fuel : Option Nat) (store : Store)
    (assigned : Names) (c' : Chart) (live bound : Names) (x : Run σ Outcome) : Prop :=
  ∀ K : Outcome → Run σ Value, (∀ v, w.Along (K (.returned v)) (pure v)) →
    (∀ m' fuel' store', c'.closed = false →
      w.Through c m fuel store assigned c' m' fuel' live bound store' →
      w.Along (K (.next store')) (w.place c' fuel' m')) →
    w.Along (x >>= K) (w.place c fuel m)

/-! ## Conditionals -/

/-- A test is gone through to where its condition is in a variable. -/
theorem along_test (hw : w.Keeps) {line : Nat} {cond : Expr} {p : Operand} {v : Variable}
    {c₁ : Chart} (hp : Chart.LowersExpr line cond c p c₁)
    (hv : Chart.LowersCondition line p c₁ v c') (hcond : cond.IsPlain) (hg : c'.graph.Grows w.graph)
    (hreads : w.Supplies cond.reads live bound) (hat : w.At c m fuel live bound store)
    {f : Value → Run σ Value} (h : ∀ x m' fuel', Later c.graph.varCount m fuel m' fuel' →
      w.At c' m' fuel' live bound store →
      m' v = some x → w.Along (f x) (w.place c' fuel' m')) :
    w.Along (cond.eval w.env bound store >>= f) (w.place c fuel m) := by
  have hfirst := hp.computes hat.ready
  have hread := hfirst.reads p List.mem_cons_self
  have hg₁ : c₁.graph.Grows w.graph := (hv.computes hfirst.isReady hread).advances.graph.trans hg
  refine along_expr hw hp hcond hg₁ hreads hat fun x m₁ fuel₁ hlater₁ hx => ?_
  refine along_condition hv (hat.computed hp hcond hlater₁) hread hx hg
    fun m₂ fuel₂ hlater₂ hat₂ hxv => ?_
  exact h x m₂ fuel₂ (hlater₁.trans hlater₂ hfirst.advances.vars_le) hat₂ hxv

/-- The end of an arm leads into the join. -/
theorem Along.arm {d : Chart} {edges : List Edge} (hj : c.Joinable c' edges)
    (he : d.out none ∈ edges) (hplain : ∀ e ∈ edges, e.env.IsPlain)
    (hg : (c'.joined edges live).graph.Grows w.graph) {block : Block}
    (hd : d.graph.block? d.block = some block) (hb : c'.graph.block? d.block = some block)
    (hat : w.At d m fuel live bound store) {y : Run σ Value}
    (h : ∀ m' fuel', Later c'.graph.varCount m fuel m' fuel' →
      (∀ n ∈ live, ∀ op, (c'.joined edges live).env.get? n = some op →
        op.Holds w.globals m' (Chart.look store n)) →
      w.Along y (w.place (c'.joined edges live) fuel' m')) : w.Along y (w.place d fuel m) :=
  .join (Chart.look store) hj he hplain hg hd hb hat.fuel
    (fun _ hn => hat.holds.passed hat.tracks hn)
    hat.holds.holds rfl fun m' fuel' hlater hnames _ => h m' fuel' hlater hnames

/-! ## Loops -/

section Loops

variable {carried : Names}

/-- **The head of a loop is entered**, before the first round or at the end of one: the names that
it carries hold what is passed, and all others hold what they held before the loop. -/
theorem enters_loop (hat : w.At c m fuel live bound store)
    (hg : (c.looped carried).graph.Grows w.graph) (hm : Registers.SameBelow c.graph.varCount m m')
    {env : Bindings} (hpassed : ∀ n ∈ carried,
      (env.passed n).Holds w.globals m' (Chart.look store' n))
    (hkept : ∀ n ∈ live, n ∉ carried → store' n = store n) :
    ∃ next, Registers.SameBelow c.graph.varCount m' next
      ∧ (∀ n ∈ live, ∀ op, (c.looped carried).env.get? n = some op →
        op.Holds w.globals next (Chart.look store' n))
      ∧ ∀ s, Fixes w.env w.globals s →
        Strict.takeBranch w.env w.graph m' (.jump c.next (carried.map env.passed)) s
          = some (.ok (.enter c.next next), s) := by
  have hmeets := Chart.meets_loop hat.ready.bare hat.ready.env carried
  have hthreaded := Chart.threaded_all carried
  refine ⟨m'.bind ((Graph.newParams c.graph.varCount carried.length).map Prod.fst)
    (carried.map (Chart.look store')), Registers.sameBelow_newParams m' _ _ _,
    fun n hn op hget => ?_, fun s hs => ?_⟩
  · have hnext : op.Holds w.globals
        (m'.bind ((Graph.newParams c.graph.varCount carried.length).map Prod.fst)
        ((threaded (fun _ => none) (fun _ => true) carried).map (Chart.look store') ++ []))
        (Chart.look store' n) :=
      Chart.holds_threadEnv (Nat.le_of_eq (congrArg List.length hthreaded)) nofun
        (fun hnot op hold => ?_) hget
    · rw [hthreaded, List.append_nil] at hnext
      exact hnext
    · -- a name that is not carried stands for what it stood for before the loop
      have hnot : n ∉ carried := fun hmem => nomatch (hnot hmem).2
      have hsame : Chart.look store' n = Chart.look store n := by
        rw [Chart.look, hkept n hn hnot, Chart.look]
      have hbelow := (hat.ready.env n op hold).below hat.ready.sound
      rw [hsame]
      exact ⟨(hat.holds.holds n hn op hold).sameBelow hbelow hm, hbelow⟩
  · exact takeBranch_enter hg (hmeets.block?_target hat.ready.sound) rfl (holds_passed hpassed) hs

/-- The run goes from a branch to the head of a loop into the head. -/
theorem Along.head (hat : w.At c m fuel live bound store)
    (hg : (c.looped carried).graph.Grows w.graph) (hlater : Later c.graph.varCount m fuel m' fuel')
    {env : Bindings} (hpassed : ∀ n ∈ carried,
      (env.passed n).Holds w.globals m' (Chart.look store' n))
    (hkept : ∀ n ∈ live, n ∉ carried → store' n = store n) {y : Run σ Value}
    (h : ∀ next, Later c.graph.varCount m fuel next fuel' →
      (∀ n ∈ live, ∀ op, (c.looped carried).env.get? n = some op →
        op.Holds w.globals next (Chart.look store' n)) → w.Along y (w.start fuel' c.next next)) :
    w.Along y (Strict.takeFirst w.env w.graph b m' [.jump c.next (carried.map env.passed)]
      >>= Strict.Exit.follow (w.start fuel')) := by
  obtain ⟨next, hsame, hnames, htake⟩ := enters_loop hat hg hlater.registers hpassed hkept
  have hstart := h next ⟨hlater.registers.trans hsame (Nat.le_refl _), hlater.left⟩ hnames
  refine hstart.right fun s hs => ?_
  rw [Strict.takeFirst_always rfl, Run.bind_apply, htake s hs]
  rfl

/-- A round of a loop: the test, and the body if the test holds. -/
theorem loop_succ (test : Store → Run σ Bool) (body : Store → Run σ Outcome) (k : Nat)
    (store : Store) (K : Outcome → Run σ Value) :
    loop test body (k + 1) store >>= K = test store >>= fun holds =>
      if holds then body store >>= fun outcome => match outcome with
        | .next store => loop test body k store >>= K
        | .returned x => K (.returned x)
      else K (.next store) := by
  rw [loop, bind_assoc]
  congr 1
  funext holds
  cases holds
  · rfl
  · rw [if_pos rfl, if_pos rfl, bind_assoc]
    congr 1
    funext outcome
    cases outcome <;> rfl

end Loops

/-! ### The charts of a loop -/

end Pairing

namespace Chart

/-- The chart where the first arm of a fork begins. -/
abbrev firstArm (c : Chart) (v : Variable) : Chart := (c.forked v).moved c.trueBlock c.env false

/-- The chart behind a loop, whose body ends at `c₃` and whose test at `c₂`. -/
abbrev behind (c c₂ c₃ : Chart) (carried : Names) : Chart :=
  (c₃.ledBack c.next carried).moved c₂.falseBlock c₂.env false

/-- The run goes from the chart before a loop to the head. -/
theorem goOn_looped {σ : Type} {env : Surroundings σ} {g : Graph} {fuel : Option Nat}
    {m : Registers} {c : Chart} {carried : Names} (hready : c.Ready)
    (hg : (c.looped carried).graph.Grows g) : c.goOn env g fuel m
      = Strict.takeFirst env g c.block m [.jump c.next (carried.map c.env.passed)]
        >>= Strict.Exit.follow (Strict.runFor env g fuel) := by
  obtain ⟨block, hb, -⟩ := hready.bare
  have hmeets := meets_loop hready.bare hready.env carried
  have hself : (c.looped carried).graph.block? c.block = _ :=
    hmeets.block?_source hready.sound (e := c.approach) List.mem_cons_self hb
  rw [Chart.goOn, position_eq hb]
  exact resume_closed (c := c.looped carried) hg hself (List.cons_ne_nil _ _)

/-- The charts that a loop is lowered through: the test ends at `c₂`, and the body at `c₃`. -/
structure Circles (line : Nat) (cond : Expr) (body : List Stmt) (inside : Names) (c : Chart)
    (p : Operand) (c₁ : Chart) (v : Variable) (c₂ c₃ : Chart) : Prop where
  start : c.Ready
  test : LowersExpr line cond (c.looped (carriedNames body inside)) p c₁
  condition : LowersCondition line p c₁ v c₂
  round : LowersBody inside body (c₂.firstArm v) c₃

namespace Circles

variable {line : Nat} {cond : Expr} {body : List Stmt} {inside : Names} {c c₁ c₂ c₃ : Chart}
  {p : Operand} {v : Variable} {block : Block}

theorem head (h : Circles line cond body inside c p c₁ v c₂ c₃) :
    (c.looped (carriedNames body inside)).Ready :=
  (h.start.looped _).1.ready rfl

theorem tested (h : Circles line cond body inside c p c₁ v c₂ c₃) :
    (c.looped (carriedNames body inside)).Computes [.var v] c₂ ∧ c₂.Here c₂.block v :=
  (h.test.computes h.head).condition h.condition

theorem around (h : Circles line cond body inside c p c₁ v c₂ c₃) :
    (c₂.firstArm v).Continues c₃ ∧ c₃.closed = Stmt.returnsAll body :=
  h.round.continues (h.tested.1.isReady.onTrue h.tested.2)

theorem arm (h : Circles line cond body inside c p c₁ v c₂ c₃) :
    (c₂.forked v).Arm c₂.trueBlock [c₂.falseBlock] c₃ :=
  Continues.armTrue h.tested.1.isReady h.tested.2 h.around.1

/-- The head awaits the names that it carries, and was promised what is bound before the loop. -/
theorem awaits (h : Circles line cond body inside c p c₁ v c₂ c₃) :
    c₂.Awaits c.next (carriedNames body inside).length (c₂.Here c₂.block) := by
  obtain ⟨hloop, hhead⟩ := h.start.looped (carriedNames body inside)
  obtain ⟨hblock, hpromise⟩ := hhead.advance h.tested.1.advances
  exact ⟨hblock, fun u hu => h.tested.1.here h.tested.1.opened u (hloop.here rfl u (hpromise u hu))⟩

/-- What is lowered after the body is the branch back. -/
theorem back (h : Circles line cond body inside c p c₁ v c₂ c₃) :
    Advances c₃.ends c₃ [] (c₃.ledBack c.next (carriedNames body inside)) := by
  have hfork := (h.tested.1.isReady.fork h.tested.2).2
  have hawaits := (h.awaits.advance hfork.advances).advance h.arm.advances
  exact (h.arm.ledBack hawaits fun u hu => (hfork.here u hu).1).2

/-- At the end of the body, if it is open, the run goes back to the head. -/
theorem goOn_end {σ : Type} {env : Surroundings σ} {g : Graph} {fuel : Option Nat} {m : Registers}
    (h : Circles line cond body inside c p c₁ v c₂ c₃) (hopen : c₃.closed = false)
    (hg : (c₃.ledBack c.next (carriedNames body inside)).graph.Grows g) : c₃.goOn env g fuel m
      = Strict.takeFirst env g c₃.block m
        [.jump c.next ((carriedNames body inside).map c₃.env.passed)]
        >>= Strict.Exit.follow (Strict.runFor env g fuel) := by
  obtain ⟨block, hb, hempty⟩ := h.arm.bare_end hopen
  have hself : (c₃.ledBack c.next (carriedNames body inside)).graph.block? c₃.block
      = some { block with
        branches := [.jump c.next ((carriedNames body inside).map c₃.env.passed)] } := by
    have hbranched := Graph.block?_branched c₃.graph c₃.block c₃.block
      [.jump c.next ((carriedNames body inside).map c₃.env.passed)]
    rw [if_pos rfl, hb, Option.map_some, hempty] at hbranched
    rw [Chart.ledBack, if_neg (by rw [hopen]; exact Bool.false_ne_true)]
    exact hbranched
  rw [Chart.goOn, Chart.position_eq hb]
  exact resume_closed hg hself (List.cons_ne_nil _ _)

/-- The way out is not begun while the body is lowered. -/
theorem block?_exit (h : Circles line cond body inside c p c₁ v c₂ c₃) :
    (c₃.ledBack c.next (carriedNames body inside)).graph.block? c₂.falseBlock = some .empty := by
  exact h.back.frame _ _ (h.arm.notMem_ends List.mem_cons_self)
    (h.around.1.block?_falseBlock h.tested.1.isReady h.tested.2)

/-- The graphs of the charts grow from one to the next. -/
theorem graphs (h : Circles line cond body inside c p c₁ v c₂ c₃) {g : Graph}
    (hg : (c₃.ledBack c.next (carriedNames body inside)).graph.Grows g) :
    (c.looped (carriedNames body inside)).graph.Grows g ∧ c₂.graph.Grows g
      ∧ (c₂.forked v).graph.Grows g := by
  have hgf : (c₂.forked v).graph.Grows g :=
    h.around.1.advances.of_moved.graph.trans (h.back.graph.trans hg)
  have hg₂ : c₂.graph.Grows g := (h.tested.1.isReady.fork h.tested.2).2.advances.graph.trans hgf
  exact ⟨h.tested.1.advances.graph.trans hg₂, hg₂, hgf⟩

end Circles

end Chart

namespace Pairing

variable {σ : Type} {w : Pairing σ} {c c' : Chart} {m m' : Registers} {fuel fuel' : Option Nat}
  {live bound assigned : Names} {store store' : Store} {b : BlockId}

/-- **The rounds of a loop are gone through** from its head, if its body can be. -/
theorem along_rounds (hw : w.Keeps) {line : Nat} {cond : Expr} {body : List Stmt} {p : Operand}
    {v : Variable} {c₁ c₂ c₃ : Chart} {inside inner : Names}
    (hl : Chart.Circles line cond body inside c p c₁ v c₂ c₃)
    (hinner : inner = Names.union bound (assignedBy body)) (hcond : cond.IsPlain)
    (hreads : ∀ n ∈ cond.reads, n ∈ inside) (hgrants : w.Grants (cond.globals inner))
    (hat : w.At c m fuel inside bound store)
    (hg : (c₃.ledBack c.next (carriedNames body inside)).graph.Grows w.graph)
    (hpasses : ∀ m fuel store, w.At (c₂.firstArm v) m fuel inside inner store →
      w.Passes (c₂.firstArm v) m fuel store (assignedBy body) c₃ inside
      (Stmt.boundAfterAll inner body)
        (Stmt.execAll w.env w.rounds inner store body))
    {K : Outcome → Run σ Value} (hreturned : ∀ x, w.Along (K (.returned x)) (pure x))
    (hexit : ∀ m' fuel' store', w.Through c m fuel store (assignedBy body)
      (c.behind c₂ c₃ (carriedNames body inside)) m' fuel' inside inner store' →
      w.Along (K (.next store')) (w.place (c.behind c₂ c₃ (carriedNames body inside)) fuel' m'))
    (k : Nat) (m' : Registers) (fuel' : Option Nat) (store' : Store) (hfuel : w.lag.Allows k fuel')
    (hlater : Later c.graph.varCount m fuel m' fuel')
    (hnames : ∀ n ∈ inside, ∀ op, (c.looped (carriedNames body inside)).env.get? n = some op →
      op.Holds w.globals m' (Chart.look store' n))
    (hkept : ∀ n, n ∉ assignedBy body → store' n = store n) :
    w.Along (loop (fun store => do test (← cond.eval w.env inner store))
      (fun store => Stmt.execAll w.env w.rounds inner store body) k store' >>= K)
      (w.start fuel' c.next m') := by
  obtain ⟨hg₀, hg₂, hgf⟩ := hl.graphs hg
  obtain ⟨hcomputes, hhere⟩ := hl.tested
  have hready := hcomputes.isReady
  have hhead : (c.looped (carriedNames body inside)).Tracks inside inner :=
    hinner ▸ hat.tracks.looped
  have htarget : (c.looped (carriedNames body inside)).graph.block? c.next = _ :=
    (Chart.meets_loop hat.ready.bare hat.ready.env (carriedNames body inside)).block?_target
      hat.ready.sound
  have hcarried : ∀ n ∈ carriedNames body inside, n ∈ inside ∧ n ∈ assignedBy body := by
    intro n hn
    obtain ⟨hassigned, hinside⟩ := List.mem_filter.1 hn
    exact ⟨List.contains_iff_mem.1 hinside, hassigned⟩
  have hle₀ : c.graph.varCount ≤ (c.looped (carriedNames body inside)).graph.varCount :=
    (hl.start.looped _).1.advances.vars_le
  have hle₂ : c.graph.varCount ≤ c₂.graph.varCount := Nat.le_trans hle₀ hcomputes.advances.vars_le
  have hlef : c.graph.varCount ≤ (c₂.forked v).graph.varCount :=
    Nat.le_trans hle₂ (hready.fork hhere).2.advances.vars_le
  induction k generalizing m' fuel' store' with
  | zero =>
    -- neither run goes on: the tree's has no rounds left, and if it does not lag the graph's has no
    -- fuel
    intro s t _
    refine .inl ?_
    rcases hlag : w.lag with _ | _
    · rfl
    · rw [hlag] at hfuel
      obtain ⟨j, hj, rfl⟩ := hfuel
      obtain rfl := Nat.le_zero.1 hj
      rfl
  | succ k ih =>
    rw [loop_succ, bind_assoc]
    refine .place (c := c.looped (carriedNames body inside)) hfuel htarget
      rfl fun fuel₀ hleft₀ hless => ?_
    have hlater₀ : Later c.graph.varCount m fuel m' fuel₀ := hlater.leave hleft₀
    have hat₀ : w.At (c.looped (carriedNames body inside)) m' fuel₀ inside inner store' := by
      refine ⟨hl.head, hhead, ⟨hnames, fun n hn => ?_⟩, hlater₀.left _ _ hat.fuel⟩
      rw [hinner, Names.mem_union]
      by_cases hmem : n ∈ assignedBy body
      · exact .inr hmem
      · rw [hkept n hmem] at hn
        exact .inl (hat.holds.assigned n hn)
    refine along_test hw hl.test hl.condition hcond hg₂ (hgrants.supplies hreads) hat₀
      fun z m₂ fuel₂ hlater₂ hat₂ hzv => ?_
    have hlater' : Later c.graph.varCount m fuel m₂ fuel₂ := hlater₀.trans hlater₂ hle₀
    have hless₂ : w.lag.Allows k fuel₂ := hlater₂.left _ _ (hless k rfl)
    refine .fork hat₂ hhere hzv hgf hl.block?_exit (fun fuel₃ hleft => ?_) c₂.env
      fun fuel₃ hleft => ?_
    · have hat₃ := hat₂.advance (hready.onTrue hhere) (fun _ => rfl) (.of_left _ m₂ hleft)
      refine hpasses m₂ fuel₃ store' hat₃ _ hreturned fun m₄ fuel₄ store₄ hopen hthrough => ?_
      have hlater₄ : Later c.graph.varCount m fuel m₄ fuel₄ :=
        (hlater'.leave hleft).trans hthrough.later hlef
      have hkept₄ : ∀ n, n ∉ assignedBy body → store₄ n = store n := fun n hn =>
        (hthrough.kept n hn).trans (hkept n hn)
      rw [Pairing.place, hl.goOn_end hopen hg]
      refine .head hat hg₀ hlater₄ (fun n hn => ?_) (fun n hn hnot => hkept₄ n fun hassigned => ?_)
        fun next hnext hholds => ?_
      · exact hthrough.arrived.holds.passed hthrough.arrived.tracks (hcarried n hn).1
      · exact hnot (List.mem_filter.2 ⟨hassigned, List.contains_iff_mem.2 hn⟩)
      · exact ih next fuel₄ store₄ (hthrough.later.left _ _ (hleft _ _ hless₂)) hnext hholds hkept₄
    · have hcontinues := hready.whileLoop hhere (hl.awaits) (fun u hu => hu) hl.around.1
      have hat₃ := hat₂.advance (hcontinues.ready rfl) (fun _ => rfl) (.of_left _ m₂ hleft)
      exact hexit m₂ fuel₃ store' ⟨hlater'.leave hleft, hat₃, hkept⟩

/-! ## Statements -/

section Statements

variable {st : Stmt} {line : Nat} {e cond : Expr} {body onTrue onFalse : List Stmt}

/-- The statement can be gone through wherever it was lowered. -/
def PassesStmt (w : Pairing σ) (st : Stmt) : Prop :=
  ∀ {live bound : Names} {c c' : Chart} {m : Registers} {fuel : Option Nat} {store : Store},
    Chart.LowersStmt live st c c' → c'.graph.Grows w.graph → w.Grants (st.globals bound) →
    w.At c m fuel (Names.union (st.addReads []) live) bound store →
    w.Passes c m fuel store (st.addAssigned []) c' live (st.boundAfter bound)
      (st.exec w.env w.rounds bound store)

/-- The statements can be gone through wherever they were lowered. -/
def PassesBody (w : Pairing σ) (body : List Stmt) : Prop :=
  ∀ {live bound : Names} {c c' : Chart} {m : Registers} {fuel : Option Nat} {store : Store},
    Chart.LowersBody live body c c' → c'.graph.Grows w.graph →
    w.Grants (Stmt.globalsAll bound body) →
    w.At c m fuel (Names.union (readsOf body) live) bound store →
    w.Passes c m fuel store (assignedBy body) c' live (Stmt.boundAfterAll bound body)
      (Stmt.execAll w.env w.rounds bound store body)

/-- The runs are behind a statement, which is known to leave the names tracked. -/
theorem At.behind (hat : w.At c m fuel (Names.union (st.addReads []) live) bound store)
    (hl : Chart.LowersStmt live st c c') (hst : st.IsPlain) (hopen : c'.closed = false)
    (hlater : Later c.graph.varCount m fuel m' fuel')
    (hnames : ∀ n ∈ live, ∀ op, c'.env.get? n = some op →
      op.Holds w.globals m' (Chart.look store' n))
    (hassigned : ∀ n, (store' n).isSome → n ∈ st.boundAfter bound) :
    w.At c' m' fuel' live (st.boundAfter bound) store' :=
  ⟨(hl.continues hat.ready).1.ready hopen, hl.tracks hat.ready hst hat.tracks hopen,
    ⟨hnames, hassigned⟩, hlater.left _ _ hat.fuel⟩

/-! ### Without arms -/

theorem passes_assign (hw : w.Keeps) {n : String} (hst : (Stmt.assign line n e).IsPlain) :
    w.PassesStmt (.assign line n e) := by
  intro live bound c c' m fuel store hl hg hgrants hat K hreturned hnext
  have hl' := hl
  obtain ⟨op, c₁, hop, rfl⟩ := hl
  have hlive : ∀ k ∈ e.reads, k ∈ Names.union (Stmt.addReads (.assign line n e) []) live :=
    fun k hk => (Names.mem_union ..).2 (.inl hk)
  rw [Stmt.exec, bind_assoc]
  refine along_expr hw hop hst hg (Grants.supplies hgrants hlive) hat fun x m₁ fuel₁ hlater hx => ?_
  rw [pure_bind]
  have hat₁ := hat.computed hop hst hlater
  have hopen := (hop.computes hat.ready).opened
  -- the name that is assigned holds the new value, and the others what they held
  refine hnext m₁ fuel₁ _ hopen ⟨hlater, hat.behind hl' hst hopen hlater (fun k hk op' hget => ?_)
    fun k hk => ?_, fun k hk => if_neg fun hnk => hk ?_⟩
  · have hget : (if n = k then some op else c₁.env.get? k) = some op' :=
      (Bindings.get?_bind ..).symm.trans hget
    by_cases hnk : n = k
    · subst hnk
      rw [if_pos rfl] at hget
      obtain rfl := Option.some.inj hget
      rw [Chart.look, Store.set, if_pos rfl]
      exact hx
    · rw [if_neg hnk] at hget
      rw [Chart.look, Store.set, if_neg hnk]
      exact hat₁.holds.holds k ((Names.mem_union ..).2 (.inr hk)) op' hget
  · rw [Stmt.boundAfter, Names.mem_insert]
    by_cases hnk : n = k
    · exact .inl hnk.symm
    · rw [Store.set, if_neg hnk] at hk
      exact .inr (hat.holds.assigned k hk)
  · rw [Stmt.addAssigned, Names.mem_insert]
    exact .inl hnk.symm

theorem passes_expr (hw : w.Keeps) (hst : (Stmt.expr line e).IsPlain) :
    w.PassesStmt (.expr line e) := by
  intro live bound c c' m fuel store hl hg hgrants hat K _ hnext
  obtain ⟨op, hop⟩ := hl
  have hlive : ∀ n ∈ e.reads, n ∈ Names.union (Stmt.addReads (.expr line e) []) live :=
    fun n hn => (Names.mem_union ..).2 (.inl hn)
  rw [Stmt.exec, bind_assoc]
  refine along_expr hw hop hst hg (Grants.supplies hgrants hlive) hat fun x m₁ fuel₁ hlater hx => ?_
  rw [pure_bind]
  have hat₁ := hat.computed hop hst hlater
  exact hnext m₁ fuel₁ _ (hop.computes hat.ready).opened
    ⟨hlater, hat₁.mono fun n hn => (Names.mem_union ..).2 (.inr hn), fun _ _ => rfl⟩

theorem passes_giveBack (hw : w.Keeps) (hst : (Stmt.giveBack line e).IsPlain) :
    w.PassesStmt (.giveBack line e) := by
  intro live bound c c' m fuel store hl hg hgrants hat K hreturned _
  obtain ⟨op, c₁, hop, rfl⟩ := hl
  have hbare := (hop.computes hat.ready).isReady.bare
  have hclosing : Chart.Closing [Branch.leave op] := ⟨[], _, rfl, rfl, List.forall_mem_nil _⟩
  have hclosed : (c₁.branched c₁.block [.leave op]).graph.Grows w.graph := hg
  have hlive : ∀ n ∈ e.reads, n ∈ Names.union (Stmt.addReads (.giveBack line e) []) live :=
    fun n hn => (Names.mem_union ..).2 (.inl hn)
  rw [Stmt.exec, bind_assoc]
  refine along_expr hw hop hst ((Chart.advances_branched hbare hclosing).graph.trans hclosed)
    (Grants.supplies hgrants hlive) hat fun x m₁ fuel₁ hlater hx => ?_
  rw [pure_bind]
  refine (hreturned x).right fun s hs => ?_
  rw [Pairing.place, Chart.goOn_leave hbare hclosed, hx.apply hs]
  rfl

/-! ### Conditionals -/

/-- After a test one of two ways is gone. -/
theorem bind_test (x : Run σ Value) (y y' : Run σ Outcome) (K : Outcome → Run σ Value) :
    (do if ← test (← x) then y else y') >>= K
      = x >>= fun z => test z >>= fun holds => if holds then y >>= K else y' >>= K := by
  rw [bind_assoc]
  congr 1
  funext z
  rw [bind_assoc]
  congr 1
  funext holds
  cases holds <;> rfl

/-- **An arm of a conditional is gone through and left.** It is lowered from `d` to `d'`, and if it
does not return, the run goes from its end into the join. -/
theorem PassesBody.arm {arm : List Stmt} (harm : w.PassesBody arm) {edges : List Edge}
    {c₀ d d' e : Chart} {m₀ : Registers} {fuel₀ : Option Nat}
    (hl : Chart.LowersStmt live st c (e.joinedAll edges live)) (hst : st.IsPlain)
    (hat : w.At c m fuel (Names.union (st.addReads []) live) bound store)
    (hj : c₀.Joinable e edges) (hplain : ∀ e ∈ edges, e.env.IsPlain)
    (hg : (e.joinedAll edges live).graph.Grows w.graph) (hlarm : Chart.LowersBody live arm d d')
    (hle : c.graph.varCount ≤ d.graph.varCount) (hle' : c.graph.varCount ≤ e.graph.varCount)
    (hgrants : w.Grants (Stmt.globalsAll bound arm)) (hgrows : d'.graph.Grows w.graph)
    (hentered : Later c.graph.varCount m fuel m₀ fuel₀)
    (hat₀ : w.At d m₀ fuel₀ (Names.union (readsOf arm) live) bound store)
    (hout : d'.closed = false → d'.out none ∈ edges
      ∧ ∀ block, d'.graph.block? d'.block = some block →
        e.graph.block? d'.block = some block)
    (hbound : d'.closed = false → ∀ n ∈ Stmt.boundAfterAll bound arm, n ∈ st.boundAfter bound)
    (hassigned : ∀ n ∈ assignedBy arm, n ∈ st.addAssigned []) {K : Outcome → Run σ Value}
    (hreturned : ∀ v, w.Along (K (.returned v)) (pure v))
    (hnext : ∀ m' fuel' store', (e.joinedAll edges live).closed = false →
      w.Through c m fuel store (st.addAssigned []) (e.joinedAll edges live) m' fuel' live
      (st.boundAfter bound) store' →
      w.Along (K (.next store')) (w.place (e.joinedAll edges live) fuel' m')) :
    w.Along (Stmt.execAll w.env w.rounds bound store arm >>= K) (w.place d fuel₀ m₀) := by
  refine harm hlarm hgrows hgrants hat₀ K hreturned fun m₁ fuel₁ store₁ hopen hthrough => ?_
  obtain ⟨he, hframe⟩ := hout hopen
  obtain ⟨last, hlast, -⟩ := hthrough.arrived.ready.bare
  rw [Chart.joinedAll_of_ne (List.ne_nil_of_mem he)] at hl hg hnext
  refine .arm hj he hplain hg hlast (hframe last hlast) hthrough.arrived
    fun m₂ fuel₂ hlater₂ hnames => ?_
  have hlater : Later c.graph.varCount m fuel m₂ fuel₂ :=
    (hentered.trans hthrough.later hle).trans hlater₂ hle'
  exact hnext m₂ fuel₂ store₁ rfl ⟨hlater, hat.behind hl hst rfl hlater hnames fun n hn =>
    hbound hopen n (hthrough.arrived.holds.assigned n hn), fun n hn => hthrough.kept n fun hmem =>
      hn (hassigned n hmem)⟩

theorem passes_ifThen (hw : w.Keeps) (hst : (Stmt.ifThen line cond onTrue).IsPlain)
    (hbody : w.PassesBody onTrue) : w.PassesStmt (.ifThen line cond onTrue) := by
  intro live bound c c' m fuel store hl hg hgrants hat K hreturned hnext
  have hl' := hl
  obtain ⟨p, c₁, v, c₂, c₃, hp, hv, hlbody, rfl⟩ := hl
  obtain ⟨hcond, hhere⟩ := (hp.computes hat.ready).condition hv
  have hready := hcond.isReady
  obtain ⟨h₃, hclosed₃⟩ := hlbody.continues hready.only
  have hjoin := hready.ifThen hhere h₃
  have hne : c₂.skip v :: c₃.outs ≠ [] := List.cons_ne_nil _ _
  have hg₃ : c₃.graph.Grows w.graph := hjoin.graph.trans hg
  have hgo : c₂.openedHere.graph.Grows w.graph := h₃.advances.of_moved.graph.trans hg₃
  have hg₂ : c₂.graph.Grows w.graph := hready.sound.advances_openedHere.graph.trans hgo
  have hleo : c.graph.varCount ≤ c₂.openedHere.graph.varCount :=
    Nat.le_trans hcond.advances.vars_le hready.sound.advances_openedHere.vars_le
  have hle₃ : c.graph.varCount ≤ c₃.graph.varCount := Nat.le_trans hleo h₃.advances.vars_le
  rw [Chart.joinedAll_of_ne hne] at hl' hg hnext
  have hcondLive : ∀ n ∈ cond.reads,
      n ∈ Names.union (Stmt.addReads (.ifThen line cond onTrue) []) live :=
    fun n hn => Stmt.mem_live_ifThen.2 (.inl hn)
  have hbodyLive : ∀ n ∈ Names.union (readsOf onTrue) live,
      n ∈ Names.union (Stmt.addReads (.ifThen line cond onTrue) []) live := fun n hn =>
    Stmt.mem_live_ifThen.2 (.inr hn)
  have hcondGrants : w.Grants (cond.globals bound) :=
    hgrants.mono fun n hn => (Names.mem_union ..).2 (.inl hn)
  have hbodyGrants : w.Grants (Stmt.globalsAll bound onTrue) :=
    hgrants.mono fun n hn => (Names.mem_union ..).2 (.inr hn)
  rw [Stmt.exec, bind_test]
  refine along_test hw hp hv hst.1 hg₂ (hcondGrants.supplies hcondLive) hat
    fun z m₂ fuel₂ hlater hat₂ hzv => ?_
  have hbodyTracks : c₂.Tracks (Names.union (readsOf onTrue) live) bound :=
    hat₂.tracks.mono hbodyLive
  have hplain : ∀ e ∈ c₂.skip v :: c₃.outs, e.env.IsPlain := fun e he => by
    rcases List.mem_cons.1 he with rfl | he
    · exact hat₂.tracks.plain
    · obtain ⟨hopen₃, rfl⟩ := Chart.mem_outs.1 he
      exact (hlbody.tracks hready.only hst.2 hbodyTracks.moved hopen₃).plain
  -- the way past the arm starts where the condition was tested
  obtain ⟨block, hb, -⟩ := hready.bare
  have hb₃ : c₃.graph.block? c₂.block = some block := by
    refine h₃.advances.of_moved.frame _ _ (fun hmem => ?_)
      (hready.sound.advances_openedHere.frame _ _ List.not_mem_nil hb)
    exact Chart.ne_next hb (List.mem_singleton.1 hmem)
  have harm : c₂.openedHere.graph.block? c₂.trueBlock = some .empty := by
    rw [hready.sound.block?_openedHere, if_pos rfl]
  obtain ⟨target, htarget, -⟩ := hgo _ _ harm
  have hend : w.place c₂ fuel₂ m₂ = _ := (congrArg (Strict.resume w.env w.graph fuel₂ c₂.block · m₂)
    (Chart.position_eq hb)).trans (resume_source hjoin List.mem_cons_self hg hb₃)
  rw [hend, Edge.branches_some rfl, Strict.takeFirst_unless rfl hzv, bind_assoc]
  refine .tested _ ?_ ?_
  · rw [if_pos rfl, if_pos rfl, Strict.takeFirst_always rfl, Chart.takeBranch_bare rfl rfl htarget,
      pure_bind]
    refine .place (c := c₂.openedHere.moved c₂.trueBlock c₂.env false) hat₂.fuel harm
      rfl fun fuel₃ hleft _ => ?_
    have hat₃ := hat₂.advance hready.only (fun _ => rfl) (.of_left _ m₂ hleft)
    rw [← Chart.joinedAll_of_ne hne] at hl' hg hnext
    refine hbody.arm hl' hst hat hjoin hplain hg hlbody hleo hle₃ hbodyGrants hg₃
      (hlater.leave hleft) (hat₃.mono hbodyLive) (fun hopen₃ => ?_) (fun hopen₃ n hn => ?_)
      (fun _ => id) hreturned hnext
    · exact ⟨List.mem_cons_of_mem _ (Chart.mem_outs.2 ⟨hopen₃, rfl⟩), fun _ => id⟩
    · rw [Stmt.boundAfter, Names.mem_union, ← hclosed₃, hopen₃]
      exact .inr hn
  · rw [if_neg Bool.false_ne_true, if_neg Bool.false_ne_true, pure_bind]
    have hliveAfter : w.At c₂ m₂ fuel₂ live bound store :=
      hat₂.mono fun n hn => (Names.mem_union ..).2 (.inr hn)
    refine .joins (Chart.look store) hjoin List.mem_cons_self hplain hg rfl rfl hat₂.fuel
      (fun n hn => hliveAfter.holds.passed hliveAfter.tracks hn) hliveAfter.holds.holds rfl
      fun m₅ fuel₅ hlater₅ hnames _ => ?_
    have hlater' : Later c.graph.varCount m fuel m₅ fuel₅ := hlater.trans hlater₅ hle₃
    refine hnext m₅ fuel₅ store rfl ⟨hlater', hat.behind hl' hst rfl hlater' hnames fun n hn => ?_,
      fun _ _ => rfl⟩
    rw [Stmt.boundAfter, Names.mem_union]
    exact .inl (hat₂.holds.assigned n hn)

theorem passes_ifElse (hw : w.Keeps) (hst : (Stmt.ifElse line cond onTrue onFalse).IsPlain)
    (htrue : w.PassesBody onTrue) (hfalse : w.PassesBody onFalse) :
    w.PassesStmt (.ifElse line cond onTrue onFalse) := by
  intro live bound c c' m fuel store hl hg hgrants hat K hreturned hnext
  have hl' := hl
  obtain ⟨p, c₁, v, c₂, c₃, c₄, hp, hv, hltrue, hlfalse, rfl⟩ := hl
  obtain ⟨hcond, hhere⟩ := (hp.computes hat.ready).condition hv
  have hready := hcond.isReady
  have hfork := (hready.fork hhere).2
  obtain ⟨h₃, hclosed₃⟩ := hltrue.continues (hready.onTrue hhere)
  have hsecond := hready.onFalse hhere (Chart.Continues.armTrue hready hhere h₃) fun _ _ hop => hop
  obtain ⟨h₄, hclosed₄⟩ := hlfalse.continues hsecond
  have hjoin := hready.ifElse hhere h₃ h₄
  -- each chart on the way is part of the graph that is run
  have hg₄ : c₄.graph.Grows w.graph := hjoin.graph.trans hg
  have hg₃ : c₃.graph.Grows w.graph := h₄.advances.of_moved.graph.trans hg₄
  have hgf : (c₂.forked v).graph.Grows w.graph := h₃.advances.of_moved.graph.trans hg₃
  have hg₂ : c₂.graph.Grows w.graph := hfork.advances.graph.trans hgf
  have hlef : c.graph.varCount ≤ (c₂.forked v).graph.varCount :=
    Nat.le_trans hcond.advances.vars_le hfork.advances.vars_le
  have hle₃ : c.graph.varCount ≤ c₃.graph.varCount := Nat.le_trans hlef h₃.advances.vars_le
  have hle₄ : c.graph.varCount ≤ c₄.graph.varCount := Nat.le_trans hle₃ h₄.advances.vars_le
  have hcondLive : ∀ n ∈ cond.reads,
      n ∈ Names.union (Stmt.addReads (.ifElse line cond onTrue onFalse) []) live :=
    fun n hn => Stmt.mem_live_ifElse.2 (.inl hn)
  have htrueLive : ∀ n ∈ Names.union (readsOf onTrue) live,
      n ∈ Names.union (Stmt.addReads (.ifElse line cond onTrue onFalse) []) live := fun n hn =>
    Stmt.mem_live_ifElse.2 (.inr (.inl hn))
  have hfalseLive : ∀ n ∈ Names.union (readsOf onFalse) live,
      n ∈ Names.union (Stmt.addReads (.ifElse line cond onTrue onFalse) []) live := fun n hn =>
    Stmt.mem_live_ifElse.2 (.inr (.inr hn))
  have hcondGrants : w.Grants (cond.globals bound) :=
    hgrants.mono fun n hn => (Names.mem_union ..).2 (.inl hn)
  have htrueGrants : w.Grants (Stmt.globalsAll bound onTrue) := hgrants.mono fun n hn =>
    (Names.mem_union ..).2 (.inr ((Names.mem_union ..).2 (.inl hn)))
  have hfalseGrants : w.Grants (Stmt.globalsAll bound onFalse) := hgrants.mono fun n hn =>
    (Names.mem_union ..).2 (.inr ((Names.mem_union ..).2 (.inr hn)))
  rw [Stmt.exec, bind_test]
  refine along_test hw hp hv hst.1 hg₂ (hcondGrants.supplies hcondLive) hat
    fun z m₂ fuel₂ hlater hat₂ hzv => ?_
  have htracks₃ := fun hopen₃ =>
    hltrue.tracks (hready.onTrue hhere) hst.2.1 (hat₂.tracks.mono htrueLive).moved hopen₃
  have htracks₄ :=
    fun hopen₄ => hlfalse.tracks hsecond hst.2.2 (hat₂.tracks.mono hfalseLive).moved hopen₄
  have hplain : ∀ e ∈ c₃.outs ++ c₄.outs, e.env.IsPlain := fun e he => by
    rcases List.mem_append.1 he with he | he
    · obtain ⟨hopen₃, rfl⟩ := Chart.mem_outs.1 he
      exact (htracks₃ hopen₃).plain
    · obtain ⟨hopen₄, rfl⟩ := Chart.mem_outs.1 he
      exact (htracks₄ hopen₄).plain
  -- the test tells the arm, which goes up to its end and from there into the join
  refine .fork hat₂ hhere hzv hgf (h₃.block?_falseBlock hready hhere) (fun fuel₃ hleft => ?_) c₂.env
    fun fuel₃ hleft => ?_
  · have hat₃ := hat₂.advance (hready.onTrue hhere) (fun _ => rfl) (.of_left _ m₂ hleft)
    refine htrue.arm hl' hst hat hjoin hplain hg hltrue hlef hle₄ htrueGrants hg₃
      (hlater.leave hleft) (hat₃.mono htrueLive) (fun hopen₃ => ?_) (fun hopen₃ n hn => ?_)
      (fun n hn => ?_) hreturned hnext
    · exact ⟨List.mem_append_left _ (Chart.mem_outs.2 ⟨hopen₃, rfl⟩),
        fun _ => h₃.block?_end hready hhere h₄ hopen₃⟩
    · rw [Stmt.boundAfter, Names.mem_union, ← hclosed₃, hopen₃]
      exact .inl hn
    · exact (Stmt.mem_addAssignedAll _ _).2 (.inr hn)
  · have hat₃ := hat₂.advance hsecond (fun _ => rfl) (.of_left _ m₂ hleft)
    refine hfalse.arm hl' hst hat hjoin hplain hg hlfalse hle₃ hle₄ hfalseGrants hg₄
      (hlater.leave hleft) (hat₃.mono hfalseLive) (fun hopen₄ => ?_) (fun hopen₄ n hn => ?_)
      (fun n hn => ?_) hreturned hnext
    · exact ⟨List.mem_append_right _ (Chart.mem_outs.2 ⟨hopen₄, rfl⟩), fun _ => id⟩
    · rw [Stmt.boundAfter, Names.mem_union, ← hclosed₄, hopen₄]
      exact .inr hn
    · exact (Stmt.mem_addAssignedAll _ _).2 (.inl hn)

/-! ### Loops and sequences -/

theorem passes_whileLoop (hw : w.Keeps) (hst : (Stmt.whileLoop line cond body).IsPlain)
    (hbody : w.PassesBody body) : w.PassesStmt (.whileLoop line cond body) := by
  intro live bound c c' m fuel store hl hg hgrants hat K hreturned hnext
  obtain ⟨p, c₁, v, c₂, c₃, hp, hv, hlbody, rfl⟩ := hl
  have hl : Chart.Circles line cond body (Chart.insideNames cond body live) c p c₁ v c₂ c₃ :=
    ⟨hat.ready, hp, hv, hlbody⟩
  have hinside : ∀ n ∈ Chart.insideNames cond body live,
      n ∈ Names.union (Stmt.addReads (.whileLoop line cond body) []) live := fun n hn =>
    Stmt.mem_live_whileLoop.2 hn
  have hcondLive : ∀ n ∈ cond.reads, n ∈ Chart.insideNames cond body live := fun n hn =>
    (Names.mem_union ..).2 (.inl ((Names.mem_union ..).2 (.inl hn)))
  have hbodyLive : ∀ n ∈ Names.union (readsOf body) (Chart.insideNames cond body live),
      n ∈ Chart.insideNames cond body live := fun n hn => by
    rcases (Names.mem_union ..).1 hn with hn | hn
    · exact (Names.mem_union ..).2 (.inl ((Names.mem_union ..).2 (.inr hn)))
    · exact hn
  have hliveAfter : ∀ n ∈ live, n ∈ Chart.insideNames cond body live := fun n hn =>
    (Names.mem_union ..).2 (.inr hn)
  have hcondGrants : w.Grants (cond.globals (Names.union bound (assignedBy body))) :=
    hgrants.mono fun n hn => (Names.mem_union ..).2 (.inl hn)
  have hbodyGrants : w.Grants (Stmt.globalsAll (Names.union bound (assignedBy body)) body) :=
    hgrants.mono fun n hn => (Names.mem_union ..).2 (.inr hn)
  -- the head is met as it is before the first round; the rounds are counted by `along_rounds`
  have hat' := hat.mono hinside
  obtain ⟨hg₀, -, -⟩ := hl.graphs hg
  rw [Stmt.exec, Pairing.place, Chart.goOn_looped hat.ready hg₀]
  refine .head hat' hg₀ (.refl _ m fuel) (fun n hn => ?_) (fun _ _ _ => rfl)
    fun next hlater hnames => ?_
  · exact hat'.holds.passed hat'.tracks (List.contains_iff_mem.1 (List.mem_filter.1 hn).2)
  · refine along_rounds hw hl rfl hst.1 hcondLive hcondGrants hat' hg
      (fun m fuel store hat => ?_) hreturned (fun m' fuel' store' hthrough => ?_) w.rounds next fuel
      store hat.fuel hlater hnames fun _ _ => rfl
    · exact hbody hlbody (hl.back.graph.trans hg) hbodyGrants (hat.mono hbodyLive)
    · exact hnext m' fuel' store' rfl ⟨hthrough.later, hthrough.arrived.mono hliveAfter,
        hthrough.kept⟩

theorem passes_nil : w.PassesBody [] := by
  intro live bound c c' m fuel store hl _ _ hat K _ hnext
  obtain rfl := hl
  rw [Stmt.execAll, pure_bind]
  exact hnext m fuel store hat.ready.opened
    ⟨.refl _ m fuel, hat.mono fun n hn => (Names.mem_union ..).2 (.inr hn), fun _ _ => rfl⟩

theorem passes_cons {rest : List Stmt} (hst : w.PassesStmt st) (hrest : w.PassesBody rest) :
    w.PassesBody (st :: rest) := by
  intro live bound c c' m fuel store hl hg hgrants hat K hreturned hnext
  obtain ⟨c₁, hlst, hlrest⟩ := hl
  obtain ⟨h₁, hclosed₁⟩ := hlst.continues hat.ready
  have hlive : ∀ n ∈ Names.union (st.addReads []) (Names.union (readsOf rest) live),
      n ∈ Names.union (readsOf (st :: rest)) live := fun n hn => mem_live_cons.2 hn
  have hstGrants : w.Grants (st.globals bound) :=
    hgrants.mono fun n hn => (Names.mem_union ..).2 (.inl hn)
  have htree : Stmt.execAll w.env w.rounds bound store (st :: rest) >>= K
      = st.exec w.env w.rounds bound store >>= fun outcome => match outcome with
        | .next store => Stmt.execAll w.env w.rounds (st.boundAfter bound) store rest >>= K
        | .returned x => K (.returned x) := by
    rw [Stmt.execAll, bind_assoc]
    congr 1
    funext outcome
    cases outcome <;> rfl
  rw [htree]
  rcases hopen : c₁.closed with _ | _
  · rw [if_neg (by rw [hopen]; exact Bool.false_ne_true)] at hlrest
    have h₂ := (hlrest.continues (h₁.ready hopen)).1
    have hreturns : st.returns = false := hclosed₁.symm.trans hopen
    have hrestGrants : w.Grants (Stmt.globalsAll (st.boundAfter bound) rest) := hgrants.mono
      fun n hn => by
      rw [Stmt.globalsAll, Names.mem_union, hreturns]
      exact .inr hn
    refine hst hlst (h₂.advances.graph.trans hg) hstGrants (hat.mono hlive) _ hreturned
      fun m₁ fuel₁ store₁ _ hthrough => ?_
    refine hrest hlrest hg hrestGrants hthrough.arrived K hreturned
      fun m₂ fuel₂ store₂ hopen₂ hthrough₂ => ?_
    refine hnext m₂ fuel₂ store₂ hopen₂ ⟨hthrough.later.trans hthrough₂.later h₁.advances.vars_le,
      hthrough₂.arrived, fun n hn => ?_⟩
    rw [mem_assignedBy_cons, not_or] at hn
    exact (hthrough₂.kept n hn.2).trans (hthrough.kept n hn.1)
  · rw [if_pos hopen] at hlrest
    obtain rfl := hlrest
    -- what follows is not reached
    refine hst hlst hg hstGrants (hat.mono hlive) _ hreturned fun _ _ _ hopen' => ?_
    cases hopen.symm.trans hopen'

end Statements

mutual

/-- **Every statement is gone through.** -/
theorem passesStmt (hw : w.Keeps) : ∀ {st : Stmt}, st.IsPlain → w.PassesStmt st
  | .assign _ _ _, h => passes_assign hw h
  | .expr _ _, h => passes_expr hw h
  | .giveBack _ _, h => passes_giveBack hw h
  | .ifThen _ _ _, h => passes_ifThen hw h (passesBody hw h.2)
  | .ifElse _ _ _ _, h => passes_ifElse hw h (passesBody hw h.2.1) (passesBody hw h.2.2)
  | .whileLoop _ _ _, h => passes_whileLoop hw h (passesBody hw h.2)

theorem passesBody (hw : w.Keeps) : ∀ {body : List Stmt}, Stmt.ArePlain body → w.PassesBody body
  | [], _ => passes_nil
  | _ :: _, h => passes_cons (passesStmt hw h.1) (passesBody hw h.2)

end

end Pairing

end Interpose
