import Mathlib.Data.List.Forall2
import Interpose.Proofs.Run.Basic
import Interpose.Proofs.Source.Direct

/-!
# The same program in other surroundings

A program knows its surroundings by the values of global names and by the results of calls. So if
two surroundings answer alike from related states, up to calls that stop the first run, then every
program runs alike in both, up to such a stop. The section on every way to run a program goes
through its own recursion.

The two runs need not have the same fuel. One of them may *lag*: it may have used up its fuel where
the other goes on. And graphs need not be the same either, as long as the one has for every
operation of the other one that is known to run alike.

Two surroundings are of use to say what a run does. *Limited* ones make a number of calls, and
record all of them; a further call is recorded and stops the run. *Watching* ones stop the run at
the first call after which one of some names stands for something else.
-/

set_option autoImplicit false

namespace Interpose

open Source

variable {σ τ α α' β β' : Type}

/-- Which of two runs may have used up its fuel while the other has not. -/
inductive Lag where
  | first
  | second

/-- The lag accounts for two runs, of which it says which one ended without a result. -/
def Lag.Explains : Lag → Option α → Option β → Prop
  | .first, x, _ => x = none
  | .second, _, y => y = none

/-- The run that lags has no more fuel than the other. -/
def Lag.Behind : Lag → Nat → Nat → Prop
  | .first, m, n => m ≤ n
  | .second, m, n => n ≤ m

theorem Lag.behind_pred {m n : Nat} : ∀ lag : Lag, lag.Behind (m + 1) (n + 1) → lag.Behind m n
  | .first, h => Nat.le_of_succ_le_succ h
  | .second, h => Nat.le_of_succ_le_succ h

theorem Lag.explains_none (lag : Lag) : lag.Explains (none : Option α) (none : Option β) := by
  cases lag <;> rfl

namespace Run

/-- The results are the same fault or values that are related. -/
inductive Fits (Q : α → β → Prop) : Except Fault α → Except Fault β → Prop
  | ok {a : α} {b : β} : Q a b → Fits Q (.ok a) (.ok b)
  | error (e : Fault) : Fits Q (.error e) (.error e)

theorem Fits.refl (r : Except Fault α) : Fits Eq r r := by
  cases r with
  | error e => exact .error e
  | ok a => exact .ok rfl

theorem Fits.eq {r r' : Except Fault α} (h : Fits Eq r r') : r = r' := by
  cases h with
  | ok h => rw [h]
  | error e => rfl

theorem Fits.mono {Q Q' : α → β → Prop} {r : Except Fault α} {r' : Except Fault β} (h : Fits Q r r')
    (hQ : ∀ a b, Q a b → Q' a b) : Fits Q' r r' := by
  cases h with
  | ok h => exact .ok (hQ _ _ h)
  | error e => exact .error e

/-- Results that fit are given by runs that agree. -/
theorem Agree.ofExcept {Q : α → β → Prop} {r : Except Fault α} {r' : Except Fault β}
    (h : Fits Q r r') : Agree Q (fun _ _ => True) (Run.ofExcept r : Run σ α) (Run.ofExcept r') := by
  intro s
  cases h with
  | ok h => exact .inr (.inr ⟨_, _, s, rfl, rfl, h⟩)
  | error e => exact .inr (.inl ⟨e, s, rfl, rfl, trivial⟩)

/-- Two runs have ended alike, in related states, unless the first one was stopped. -/
def Meet (lag : Lag) (R : σ → τ → Prop) (Stopped : σ → Prop) (Q : α → β → Prop)
    (x : Option (Except Fault α × σ)) (y : Option (Except Fault β × τ)) : Prop :=
  lag.Explains x y ∨ (∃ e s, x = some (.error e, s) ∧ Stopped s)
    ∨ ∃ r r' s t, x = some (r, s) ∧ y = some (r', t) ∧ R s t ∧ Fits Q r r'

/-- The runs end alike from related states, in related states, unless the first one was stopped. -/
def Along (lag : Lag) (R : σ → τ → Prop) (Stopped : σ → Prop) (Q : α → β → Prop) (x : Run σ α)
    (y : Run τ β) : Prop :=
  ∀ s t, R s t → Meet lag R Stopped Q (x s) (y t)

section Meet

variable {R : σ → τ → Prop} {Stopped : σ → Prop} {Q : α → β → Prop}
  {x : Option (Except Fault α × σ)} {y : Option (Except Fault β × τ)}

/-- Where the first run lags and has ended, the second has ended alike. -/
theorem Meet.of_first (h : Meet .first R Stopped Q x y) {r : Except Fault α} {s : σ}
    (hx : x = some (r, s)) :
    (∃ e s, x = some (.error e, s) ∧ Stopped s) ∨ ∃ r' t, y = some (r', t) ∧ R s t
      ∧ Fits Q r r' := by
  rcases h with hnone | hstop | ⟨r₁, r', s₁, t, hx₁, hy, hst, hr⟩
  · exact absurd (hx.symm.trans hnone) nofun
  · exact .inl hstop
  · obtain ⟨rfl, rfl⟩ := Prod.mk.inj (Option.some.inj (hx.symm.trans hx₁))
    exact .inr ⟨r', t, hy, hst, hr⟩

/-- Where the second run lags and has ended, the first has ended alike. -/
theorem Meet.of_second (h : Meet .second R Stopped Q x y) {r' : Except Fault β} {t : τ}
    (hy : y = some (r', t)) :
    (∃ e s, x = some (.error e, s) ∧ Stopped s) ∨ ∃ r s, x = some (r, s) ∧ R s t ∧ Fits Q r r' := by
  rcases h with hnone | hstop | ⟨r, r₁, s, t₁, hx, hy₁, hst, hr⟩
  · exact absurd (hy.symm.trans hnone) nofun
  · exact .inl hstop
  · obtain ⟨rfl, rfl⟩ := Prod.mk.inj (Option.some.inj (hy.symm.trans hy₁))
    exact .inr ⟨r, s, hx, hst, hr⟩

end Meet

namespace Along

variable {lag : Lag} {R : σ → τ → Prop} {Stopped : σ → Prop} {Q : α → β → Prop}
  {Q' : α' → β' → Prop}

theorem ofExcept {r : Except Fault α} {r' : Except Fault β} (h : Fits Q r r') :
    Along lag R Stopped Q (ofExcept r) (Run.ofExcept r') :=
  fun s t hst => .inr (.inr ⟨r, r', s, t, rfl, rfl, hst, h⟩)

theorem same (r : Except Fault α) : Along lag R Stopped Eq (Run.ofExcept r) (Run.ofExcept r) :=
  .ofExcept (.refl r)

theorem pure {a : α} {b : β} (h : Q a b) : Along lag R Stopped Q (Pure.pure a) (Pure.pure b) :=
  .ofExcept (.ok h)

theorem throw (e : Fault) : Along lag R Stopped Q (throw e) (throw e) := .ofExcept (.error e)

theorem outOfFuel : Along lag R Stopped Q outOfFuel Run.outOfFuel :=
  fun _ _ _ => .inl lag.explains_none

theorem bind {x : Run σ α} {y : Run τ β} {f : α → Run σ α'} {g : β → Run τ β'}
    (h : Along lag R Stopped Q x y) (hf : ∀ a b, Q a b → Along lag R Stopped Q' (f a) (g b)) :
    Along lag R Stopped Q' (x >>= f) (y >>= g) := by
  intro s t hst
  rw [bind_apply, bind_apply]
  rcases h s t hst with hlag | ⟨e, s', hx, hs'⟩ | ⟨r, r', s', t', hx, hy, hst', hr⟩
  · cases lag with
    | first =>
      have hx : x s = none := hlag
      rw [hx]
      exact .inl rfl
    | second =>
      have hy : y t = none := hlag
      rw [hy]
      exact .inl rfl
  · rw [hx]
    exact .inr (.inl ⟨e, s', rfl, hs'⟩)
  · rw [hx, hy]
    cases hr with
    | ok hab => exact hf _ _ hab s' t' hst'
    | error e => exact .inr (.inr ⟨.error e, .error e, s', t', rfl, rfl, hst', .error e⟩)

/-- After runs that end with the same value. -/
theorem next {x : Run σ α} {y : Run τ α} {f : α → Run σ α'} {g : α → Run τ β'}
    (h : Along lag R Stopped Eq x y) (hf : ∀ a, Along lag R Stopped Q' (f a) (g a)) :
    Along lag R Stopped Q' (x >>= f) (y >>= g) :=
  h.bind fun a _ hab => hab ▸ hf a

end Along

end Run

/-- **Branches with conditions that read alike are taken alike**: both runs take none, two that
correspond, or end in the same fault. None is taken only where every branch has a condition. -/
theorem taken?_fits {R : Branch → Branch → Prop} {frame frame' : Frame}
    {branches branches' : List Branch} (h : List.Forall₂ R branches branches')
    (hread : ∀ br br', R br br' →
      Option.Rel (fun c c' => frame'.read c' = frame.read c) br.condition br'.condition) :
    Run.Fits (fun taken taken' => Option.Rel R taken taken'
        ∧ (taken = none → ∀ br ∈ branches, br.condition ≠ none))
      (taken? frame branches) (taken? frame' branches') := by
  induction h with
  | nil => exact .ok ⟨.none, fun _ _ hbr => absurd hbr List.not_mem_nil⟩
  | @cons br br' rest rest' hbr _ ih =>
    have hhere : Run.Fits (fun taken taken' => Option.Rel R taken taken'
        ∧ (taken = none → ∀ b ∈ br :: rest, b.condition ≠ none)) (.ok (some br)) (.ok (some br')) :=
      .ok ⟨.some hbr, fun hnone => absurd hnone (Option.some_ne_none br)⟩
    have hcondition := hread br br' hbr
    rw [taken?, taken?]
    -- the conditions are both there or both not, and what they read is the same
    rcases hc : br.condition with _ | c <;> rcases hc' : br'.condition with _ | c'
    all_goals
      rw [hc, hc'] at hcondition
      cases hcondition
    · exact hhere
    · next hsame =>
      dsimp only
      rw [hsame]
      rcases frame.read c with e | x
      · exact .error e
      show Run.Fits _
        (x.asBool.mapError Fault.trap >>= fun holds => if holds
          then taken? frame rest else .ok (some br))
        (x.asBool.mapError Fault.trap >>= fun holds => if holds
          then taken? frame' rest' else .ok (some br'))
      rcases x.asBool with e | holds
      · exact .error (.trap e)
      cases holds with
      | false => exact hhere
      | true =>
        refine ih.mono fun taken taken' htaken => ⟨htaken.1, fun hnone => ?_⟩
        exact List.forall_mem_cons.2 ⟨hc ▸ Option.some_ne_none c, htaken.2 hnone⟩

/-- The surroundings answer alike from related states. -/
structure Surroundings.Along (lag : Lag) (R : σ → τ → Prop) (Stopped : σ → Prop)
    (env : Surroundings σ) (env' : Surroundings τ) : Prop where
  global : ∀ s t, R s t → ∀ n, env.global s n = env'.global t n
  call : ∀ f args, Run.Along lag R Stopped Eq (env.call f args) (env'.call f args)

/-! ## Graphs -/

/-- The graphs differ in their operations only, and `rel` relates these. -/
structure Graph.Related (rel : Operation → Operation → Prop) (g g' : Graph) : Prop where
  varCount : g.varCount = g'.varCount
  self? : g.self? = g'.self?
  blocks : ∀ b, (g.block? b = none ∧ g'.block? b = none)
    ∨ ∃ block block', g.block? b = some block ∧ g'.block? b = some block'
      ∧ block.params = block'.params
      ∧ block.branches = block'.branches
      ∧ List.Forall₂ (fun e e' => e.1 = e'.1 ∧ rel e.2.operation e'.2.operation) block.body
        block'.body

theorem Graph.Related.refl (g : Graph) : g.Related Eq g where
  varCount := rfl
  self? := rfl
  blocks b := by
    rcases hb : g.block? b with _ | block
    · exact .inl ⟨rfl, rfl⟩
    · exact .inr ⟨block, block, rfl, rfl, rfl, rfl, List.forall₂_same.2 fun _ _ => ⟨rfl, rfl⟩⟩

section

open Run

variable {lag : Lag} {R : σ → τ → Prop} {Stopped : σ → Prop} {env : Surroundings σ}
  {env' : Surroundings τ}

/-- What a global name stands for, or the trap that it stands for nothing. -/
theorem along_global (h : ∀ s t, R s t → ∀ n, env.global s n = env'.global t n) (n : String) :
    Run.Along lag R Stopped Eq
    (do match env.global (← get) n with
      | some x => return x
      | none => throw (.trap (.undefinedGlobal n)) : Run σ Value)
    (do match env'.global (← get) n with
      | some x => return x
      | none => throw (.trap (.undefinedGlobal n))) := by
  intro s t hst
  rw [bind_apply, bind_apply, get_apply, get_apply]
  dsimp only
  rw [h s t hst n]
  rcases env'.global t n with _ | x
  · exact .inr (.inr ⟨_, _, s, t, rfl, rfl, hst, .error _⟩)
  · exact .inr (.inr ⟨_, _, s, t, rfl, rfl, hst, .ok rfl⟩)

theorem along_operand (h : ∀ s t, R s t → ∀ n, env.global s n = env'.global t n) (frame : Frame)
    (op : Operand) : Run.Along lag R Stopped Eq (op.eval env frame) (op.eval env' frame) := by
  cases op with
  | var v => exact .same _
  | const c => exact .pure rfl
  | global n => exact along_global h n

theorem along_operands (h : ∀ s t, R s t → ∀ n, env.global s n = env'.global t n) (frame : Frame)
    (ops : List Operand) : Run.Along lag R Stopped Eq (Operand.evalAll env frame ops)
      (Operand.evalAll env' frame ops) := by
  induction ops with
  | nil => exact .pure rfl
  | cons op ops ih =>
    apply (along_operand h frame op).next
    intro x
    apply ih.next
    intro xs
    exact .pure rfl

theorem along_operation (h : env.Along lag R Stopped env') (frame : Frame) (e : Operation) :
    Run.Along lag R Stopped Eq (e.eval env frame) (e.eval env' frame) := by
  cases e with
  | operand op => exact along_operand h.global frame op
  | call callee args =>
    apply (along_operand h.global frame callee).next
    intro f
    apply (along_operands h.global frame args).next
    intro xs
    exact h.call f xs

variable {rel : Operation → Operation → Prop} {g g' : Graph}

theorem along_statements (hrel : ∀ frame e e', rel e e' →
    Run.Along lag R Stopped Eq (e.eval env frame)
      (e'.eval env' frame)) {body body' : List (Variable × Statement)}
    (hbody : List.Forall₂ (fun e e' => e.1 = e'.1 ∧ rel e.2.operation e'.2.operation) body body')
    (frame : Frame) :
    Run.Along lag R Stopped Eq (runStatements env frame body) (runStatements env' frame body') := by
  induction hbody generalizing frame with
  | nil => exact .pure rfl
  | @cons e e' body body' he _ ih =>
    obtain ⟨v, s⟩ := e
    obtain ⟨v', s'⟩ := e'
    obtain ⟨rfl, hop⟩ := he
    apply (hrel frame s.operation s'.operation hop).next
    intro x
    exact ih _

/-- A block of related graphs is looked up in both with the same outcome. -/
theorem along_block (hg : g.Related rel g') (b : BlockId) :
    Run.Along lag R Stopped (fun block block' => block.params = block'.params
      ∧ block.branches = block'.branches
      ∧ List.Forall₂ (fun e e' => e.1 = e'.1 ∧ rel e.2.operation e'.2.operation) block.body
        block'.body)
      (Run.ofGraph (g.block b)) (Run.ofGraph (g'.block b)) := by
  unfold Graph.block
  rcases hg.blocks b with ⟨hb, hb'⟩ | ⟨block, block', hb, hb', hsame⟩
  · rw [hb, hb']
    exact .throw _
  · rw [hb, hb']
    exact .pure hsame

theorem along_runFrom (hglobal : ∀ s t, R s t → ∀ n, env.global s n = env'.global t n)
    (hrel : ∀ frame e e', rel e e' →
      Run.Along lag R Stopped Eq (e.eval env frame) (e'.eval env' frame))
    (hg : g.Related rel g') {m n : Nat} (hfuel : lag.Behind m n)
    (b : BlockId) (frame : Frame) :
    Run.Along lag R Stopped Eq (g.runFrom env m b frame) (g'.runFrom env' n b frame) := by
  induction m generalizing n b frame with
  | zero =>
    -- the run that may stop first has no fuel, or neither has
    cases lag with
    | first => exact fun _ _ _ => .inl rfl
    | second =>
      obtain rfl : n = 0 := Nat.le_zero.1 hfuel
      exact .outOfFuel
  | succ m ih =>
    cases n with
    | zero =>
      cases lag with
      | first => exact absurd hfuel (Nat.not_succ_le_zero m)
      | second => exact fun _ _ _ => .inl rfl
    | succ n =>
      -- one block: its statements, the branch that is taken, its arguments, and the block that they
      -- go to
      apply (along_block hg b).bind
      rintro block block' ⟨-, hbranches, hbody⟩
      apply (along_statements hrel hbody frame).next
      intro frame'
      rw [hbranches]
      apply (Run.Along.same _).next
      intro br
      rcases br with _ | br
      · exact .throw _
      · apply (along_operands hglobal frame' br.args).next
        intro passed
        cases br.target with
        | leave => exact .same _
        | block t =>
          apply (along_block hg t).bind
          rintro next next' ⟨hparams, -, -⟩
          rw [Block.paramVars, Block.paramVars, hparams]
          exact ih (lag.behind_pred hfuel) t _

theorem along_invoke (hglobal : ∀ s t, R s t → ∀ n, env.global s n = env'.global t n)
    (hrel : ∀ frame e e', rel e e' →
      Run.Along lag R Stopped Eq (e.eval env frame) (e'.eval env' frame))
    (hg : g.Related rel g') {m n : Nat} (hfuel : lag.Behind m n)
    (args : List Value) :
    Run.Along lag R Stopped Eq (g.invoke env m args) (g'.invoke env' n args) := by
  have hparams : g.entry.params = g'.entry.params := by
    rw [Graph.entry_eq, Graph.entry_eq]
    rcases hg.blocks .entry with ⟨hb, hb'⟩ | ⟨block, block', hb, hb', hsame, -⟩
    · rw [hb, hb']
    · rw [hb, hb']
      exact hsame
  have harity : g.arity = g'.arity := by
    rw [Graph.arity, Graph.arity, hg.self?, hparams]
  unfold Graph.invoke
  rw [harity, hg.self?]
  by_cases hargs : args.length = g'.arity
  · rw [if_pos hargs, if_pos hargs]
    -- both start from one frame, as they number their variables alike
    have hstart : g.startFrame .nothing (g'.self?.toList ++ args)
        = g'.startFrame .nothing (g'.self?.toList ++ args) := by
      unfold Graph.startFrame Graph.arguments Block.paramVars
      rw [hg.varCount, hparams]
    unfold Graph.run
    rw [hstart]
    exact along_runFrom hglobal hrel hg hfuel _ _
  · rw [if_neg hargs, if_neg hargs]
    exact .throw _

/-! ## Trees -/

theorem along_valueOf (h : env.Along lag R Stopped env') (bound : Names) (store : Store)
    (n : String) :
    Run.Along lag R Stopped Eq (valueOf env bound store n) (valueOf env' bound store n) := by
  unfold valueOf
  rcases store n with _ | x
  · by_cases hn : n ∈ bound
    · simp only [if_pos hn]
      exact .pure rfl
    · simp only [if_neg hn]
      exact along_global h.global n
  · exact .pure rfl

mutual

theorem along_eval (h : env.Along lag R Stopped env') (bound : Names) (store : Store) : ∀ e : Expr,
    Run.Along lag R Stopped Eq (e.eval env bound store) (e.eval env' bound store)
  | .name n => along_valueOf h bound store n
  | .lit x => .pure rfl
  | .call callee args => by
    apply (along_eval h bound store callee).next
    intro f
    apply (along_evalAll h bound store args).next
    intro xs
    exact h.call f xs
  | .choose cond onTrue onFalse => by
    apply (along_eval h bound store cond).next
    intro x
    apply (Run.Along.same _).next
    intro holds
    rcases holds with _ | _
    · exact along_eval h bound store onFalse
    · exact along_eval h bound store onTrue

theorem along_evalAll (h : env.Along lag R Stopped env') (bound : Names) (store : Store) :
    ∀ es : List Expr,
    Run.Along lag R Stopped Eq (Expr.evalAll env bound store es) (Expr.evalAll env' bound store es)
  | [] => .pure rfl
  | e :: es => by
    apply (along_eval h bound store e).next
    intro x
    apply (along_evalAll h bound store es).next
    intro xs
    exact .pure rfl

end

theorem along_loop {test : Store → Run σ Bool} {test' : Store → Run τ Bool}
    {body : Store → Run σ Outcome} {body' : Store → Run τ Outcome}
    (htest : ∀ store, Run.Along lag R Stopped Eq (test store) (test' store))
    (hbody : ∀ store, Run.Along lag R Stopped Eq (body store) (body' store)) (k : Nat)
    (store : Store) :
    Run.Along lag R Stopped Eq (loop test body k store) (loop test' body' k store) := by
  induction k generalizing store with
  | zero => exact .outOfFuel
  | succ k ih =>
    apply (htest store).next
    intro holds
    rcases holds with _ | _
    · exact .pure rfl
    · apply (hbody store).next
      intro outcome
      cases outcome with
      | next store' => exact ih store'
      | returned x => exact .pure rfl

mutual

theorem along_exec (h : env.Along lag R Stopped env') (fuel : Nat) :
    ∀ (bound : Names) (store : Store) (st : Stmt),
    Run.Along lag R Stopped Eq (st.exec env fuel bound store) (st.exec env' fuel bound store)
  | bound, store, .assign _ n e => by
    apply (along_eval h bound store e).next
    intro x
    exact .pure rfl
  | bound, store, .expr _ e => by
    apply (along_eval h bound store e).next
    intro x
    exact .pure rfl
  | bound, store, .giveBack _ e => by
    apply (along_eval h bound store e).next
    intro x
    exact .pure rfl
  | bound, store, .ifThen _ cond onTrue => by
    apply (along_eval h bound store cond).next
    intro x
    apply (Run.Along.same _).next
    intro holds
    rcases holds with _ | _
    · exact .pure rfl
    · exact along_execAll h fuel bound store onTrue
  | bound, store, .ifElse _ cond onTrue onFalse => by
    apply (along_eval h bound store cond).next
    intro x
    apply (Run.Along.same _).next
    intro holds
    rcases holds with _ | _
    · exact along_execAll h fuel bound store onFalse
    · exact along_execAll h fuel bound store onTrue
  | bound, store, .whileLoop _ cond body => by
    -- the rounds of a loop go together, and so do its condition and its body
    apply along_loop
    · intro store'
      apply (along_eval h _ store' cond).next
      intro x
      exact .same _
    · intro store'
      exact along_execAll h fuel _ store' body

theorem along_execAll (h : env.Along lag R Stopped env') (fuel : Nat) :
    ∀ (bound : Names) (store : Store) (body : List Stmt),
      Run.Along lag R Stopped Eq (Stmt.execAll env fuel bound store body)
      (Stmt.execAll env' fuel bound store body)
  | bound, store, [] => .pure rfl
  | bound, store, st :: rest => by
    apply (along_exec h fuel bound store st).next
    intro outcome
    cases outcome with
    | next store' => exact along_execAll h fuel _ store' rest
    | returned x => exact .pure rfl

end

theorem along_function (h : env.Along lag R Stopped env') (d : Source.Function) (fuel : Nat)
    (args : List Value) :
    Run.Along lag R Stopped Eq (d.run env fuel args) (d.run env' fuel args) := by
  apply (along_execAll h fuel _ _ _).next
  intro outcome
  cases outcome with
  | next store => exact .pure rfl
  | returned x => exact .pure rfl

end

/-! ## Limited surroundings -/

/-- The surroundings that make so many calls. A further call is recorded and stops the run. -/
def Surroundings.limited (env : Surroundings σ) (limit : Nat) :
    Surroundings (σ × List MadeCall) where
  global s name := env.global s.1 name
  call f args := ExceptT.mk fun s =>
    if s.2.length < limit then env.recorded.call f args s
    else some (.error .emptyReturn, (s.1, s.2 ++ [⟨f, args, .error .emptyReturn⟩]))

/-! ## Watching surroundings -/

deriving instance DecidableEq for Value

/-- The surroundings that watch some names. The first call after which one of them stands for
something else is noted, and the run is stopped. -/
def Surroundings.watching (env : Surroundings σ) (names : Names) : Surroundings (σ × Bool) where
  global s name := env.global s.1 name
  call f args := ExceptT.mk fun s =>
    if s.2 then some (.error .emptyReturn, s)
    else (env.call f args s.1).map fun (r, s') =>
      if ∀ n ∈ names, env.global s' n = env.global s.1 n then (r, (s', false))
      else (.error .emptyReturn, (s', true))

/-- Watching changes nothing as long as nothing is noted. -/
theorem along_watching (lag : Lag) (env : Surroundings σ) (names : Names) :
    (env.watching names).Along lag (fun s t => s = (t, false)) (fun s => s.2 = true) env where
  global s t h n := by
    subst h
    rfl
  call f args s t h := by
    subst h
    have hcall : (env.watching names).call f args (t, false)
        = (env.call f args t).map fun (r, s') =>
        if ∀ n ∈ names, env.global s' n = env.global t n then (r, (s', false))
        else (.error .emptyReturn, (s', true)) := rfl
    rw [hcall]
    rcases env.call f args t with _ | ⟨r, t'⟩
    · exact .inl lag.explains_none
    · rw [Option.map_some]
      dsimp only
      split
      · exact .inr (.inr ⟨r, r, _, t', rfl, rfl, rfl, .refl r⟩)
      · exact .inr (.inl ⟨_, _, rfl, rfl⟩)

/-- A record of calls changes nothing of what is noted. -/
theorem along_recorded (lag : Lag) (env : Surroundings σ) (names : Names) :
    (env.recorded.watching names).Along lag (fun s t => s.1.1 = t.1 ∧ s.2 = t.2) (fun _ => False)
      (env.watching names) where
  global s t h n := congrArg (env.global · n) h.1
  call f args s t h := by
    obtain ⟨⟨s, calls⟩, noted⟩ := s
    obtain ⟨t, noted'⟩ := t
    obtain ⟨rfl, rfl⟩ := h
    -- once something was noted, both refuse every call
    rcases noted with _ | _
    · have hcall : (env.recorded.watching names).call f args ((s, calls), false)
          = ((env.call f args s).map fun (r, s') =>
            (r, (s', calls ++ [(⟨f, args, r⟩ : MadeCall)]))).map
            fun (r, s') => if ∀ n ∈ names, env.global s'.1 n = env.global s n then (r, (s', false))
              else (.error .emptyReturn, (s', true)) := rfl
      have hcall' : (env.watching names).call f args (s, false)
          = (env.call f args s).map fun (r, s') =>
          if ∀ n ∈ names, env.global s' n = env.global s n then (r, (s', false))
          else (.error .emptyReturn, (s', true)) := rfl
      rw [hcall, hcall']
      rcases env.call f args s with _ | ⟨r, s'⟩
      · exact .inl lag.explains_none
      · simp only [Option.map_some]
        split
        · exact .inr (.inr ⟨r, r, _, _, rfl, rfl, ⟨rfl, rfl⟩, .refl r⟩)
        · exact .inr (.inr ⟨_, _, _, _, rfl, rfl, ⟨rfl, rfl⟩, .error _⟩)
    · exact .inr (.inr ⟨_, _, _, _, rfl, rfl, ⟨rfl, rfl⟩, .error _⟩)

/-- A limit changes nothing of what is noted, as long as it is not reached. -/
theorem along_limited (lag : Lag) (env : Surroundings σ) (limit : Nat) (names : Names) :
    ((env.limited limit).watching names).Along lag (fun s t => s.1.1 = t.1 ∧ s.2 = t.2)
      (fun s => s.2 = false) (env.watching names) where
  global s t h n := congrArg (env.global · n) h.1
  call f args s t h := by
    obtain ⟨⟨s, calls⟩, noted⟩ := s
    obtain ⟨t, noted'⟩ := t
    obtain ⟨hst, rfl⟩ := h
    rcases noted with _ | _
    · have hcall : ∀ env' : Surroundings (σ × List MadeCall),
          (env'.watching names).call f args ((s, calls), false)
          = (env'.call f args (s, calls)).map fun (r, s') =>
            if ∀ n ∈ names, env'.global s' n = env'.global (s, calls) n then (r, (s', false))
            else (.error .emptyReturn, (s', true)) := fun _ => rfl
      have hlimited : (env.limited limit).call f args (s, calls) = if calls.length < limit then
          env.recorded.call f args (s, calls)
          else some (.error .emptyReturn, (s, calls ++ [⟨f, args, .error .emptyReturn⟩])) := rfl
      by_cases hlimit : calls.length < limit
      · -- the call is made as where there is no limit
        have hsame : ((env.limited limit).watching names).call f args ((s, calls), false)
            = (env.recorded.watching names).call f args ((s, calls), false) := by
          rw [hcall, hcall, hlimited, if_pos hlimit]
          rfl
        rw [hsame]
        exact ((along_recorded lag env names).call f args ((s, calls), false) (t, false)
          ⟨hst, rfl⟩).imp id
          (Or.imp_left fun ⟨_, _, _, hfalse⟩ => hfalse.elim)
      · rw [hcall, hlimited, if_neg hlimit, Option.map_some]
        have hkept : ∀ n ∈ names, (env.limited limit).global
            (s, calls ++ [⟨f, args, .error .emptyReturn⟩]) n
              = (env.limited limit).global (s, calls) n :=
          fun _ _ => rfl
        dsimp only
        rw [if_pos hkept]
        exact .inr (.inl ⟨_, _, rfl, rfl⟩)
    · exact .inr (.inr ⟨_, _, _, _, rfl, rfl, ⟨hst, rfl⟩, .error _⟩)

/-- In watching surroundings a call leaves what the names stand for, unless the run is stopped. -/
theorem watching_call_cases (env : Surroundings σ) (names : Names) {f : Value} {args : List Value}
    {s s' : σ × Bool} {r : Except Fault Value}
    (h : (env.watching names).call f args s = some (r, s')) :
    (∃ e, r = .error e ∧ s'.2 = true)
      ∨ ∀ n ∈ names, (env.watching names).global s' n = (env.watching names).global s n := by
  obtain ⟨t, noted⟩ := s
  rcases noted with _ | _
  · have hcall : (env.watching names).call f args (t, false)
        = (env.call f args t).map fun (r, s') =>
        if ∀ n ∈ names, env.global s' n = env.global t n then (r, (s', false))
        else (.error .emptyReturn, (s', true)) := rfl
    rw [hcall] at h
    obtain ⟨⟨r', t'⟩, -, hr⟩ := Option.map_eq_some_iff.1 h
    dsimp only at hr
    split at hr
    · next hkept =>
      obtain ⟨-, rfl⟩ := Prod.mk.inj hr
      exact .inr hkept
    · obtain ⟨rfl, rfl⟩ := Prod.mk.inj hr
      exact .inl ⟨_, rfl, rfl⟩
  · obtain ⟨rfl, rfl⟩ := Prod.mk.inj (Option.some.inj h)
    exact .inl ⟨_, rfl, rfl⟩

end Interpose
