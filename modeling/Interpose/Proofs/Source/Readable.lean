import Interpose.Proofs.Source.Derived

/-!
# Every phrase is read

A reader looks one or two tokens ahead and goes on as long as it can. It takes all of a phrase and
nothing more if the phrase is followed by a token with which no phrase of its level can go on.
Inside a program that is always so: an expression is followed by a semicolon, a comma, a colon, a
closing parenthesis or an opening brace. Only the semicolon can be missing, and without it the next
statement may be taken for the rest of an expression. So the programs that are sure to be read as
they were put together are those that have all their semicolons.

Sums, products and calls are put together from the left, and are read by loops. What is shown of a
loop is that it goes on from the tree of any first part of a phrase as from the first operand.
-/

set_option autoImplicit false

namespace Interpose.Source

variable {n : Nat}

/-! ## Where a phrase stops -/

/-- The symbols that phrases go on with, by how loose a phrase must be for that. -/
def Symbol.looseness : Symbol → Nat
  | .lParen => 1
  | .star | .slash | .percent => 2
  | .plus | .minus => 3
  | .lt | .le | .gt | .ge | .eqEq | .ne => 4
  | .question => 5
  | _ => 6

/-- The tokens do not start with a symbol that phrases up to this looseness go on with. -/
def Stops (k : Nat) (ts : List Token) : Prop := ∀ s l r, ts = ⟨.symbol s, l⟩ :: r → k < s.looseness

theorem Stops.mono {j k : Nat} {ts : List Token} (h : Stops k ts) (hjk : j ≤ k) : Stops j ts :=
  fun s l r heq => Nat.lt_of_le_of_lt hjk (h s l r heq)

theorem stops_of_symbol {k : Nat} {s : Symbol} (h : k < s.looseness) (l : Nat) (ts : List Token) :
    Stops k (⟨.symbol s, l⟩ :: ts) := by
  rintro s' l' r heq
  cases heq
  exact h

theorem Stops.front {k : Nat} {ts : List Token} (h : Stops k ts) {accepts : Symbol → Bool}
    (hloose : ∀ s, accepts s = true → s.looseness ≤ k) : frontSymbol? accepts ts = none := by
  refine Option.eq_none_iff_forall_ne_some.2 fun s hsome => ?_
  obtain ⟨hs, l, r, rfl⟩ := frontSymbol?_eq_some.1 hsome
  exact Nat.not_lt.2 (hloose s hs) (h s l r rfl)

section Loops

variable {ts : List Token} {e : Expr}

theorem Stops.calls (h : Stops 1 ts) : Parses (continueCalls n e ts) e ts := by
  have hfront : frontSymbol? (· == .lParen) ts = none := h.front fun s hs => by
    obtain rfl := beq_iff_eq.1 hs
    exact Nat.le_refl _
  exact parses_continueCalls.2 ((atFront_of_none hfront).2 ⟨rfl, rfl⟩)

theorem Stops.product (h : Stops 2 ts) : Parses (continueProduct n e ts) e ts := by
  have hfront : frontSymbol? Symbol.isMultiplicative ts = none := h.front fun s hs => by
    cases s <;> first | exact Nat.le_refl _ | cases hs
  exact parses_continueProduct.2 ((atFront_of_none hfront).2 ⟨rfl, rfl⟩)

theorem Stops.sum (h : Stops 3 ts) : Parses (continueSum n e ts) e ts := by
  have hfront : frontSymbol? Symbol.isAdditive ts = none := h.front fun s hs => by
    cases s <;> first | exact Nat.le_refl _ | cases hs
  exact parses_continueSum.2 ((atFront_of_none hfront).2 ⟨rfl, rfl⟩)

theorem Stops.comparison (h : Stops 4 ts) :
    frontSymbol? Symbol.isComparison ts = none := h.front fun s hs => by
  cases s <;> first | exact Nat.le_refl _ | cases hs

theorem Stops.expr (h : Stops 5 ts) :
    frontSymbol? (· == .question) ts = none := h.front fun s hs => by
  obtain rfl := beq_iff_eq.1 hs
  exact Nat.le_refl _

end Loops

/-! ## Expressions -/

/-- A primary expression does not start with a sign, so what goes on from it is read as a factor. -/
theorem parses_factor {ts r₀ r : List Token} {f e : Expr} (hf : Parses (readPrimary n ts) f r₀)
    (hgo : Parses (continueCalls n f r₀) e r) : Parses (readUnary n ts) e r := by
  have hfront : frontSymbol? (fun s => s == .minus || s == .bang) ts = none := by
    obtain ⟨⟨x, l⟩, ts, rfl⟩ := List.exists_cons_of_ne_nil hf.ne_nil
    rcases parses_readPrimary.1 hf with ⟨hatom, -⟩ | ⟨rfl, -⟩
    · cases x with
      | symbol s => cases hatom
      | _ => rfl
    · rfl
  exact parses_readUnary.2 ((atFront_of_none hfront).2 ⟨f, r₀, hf, hgo⟩)

/-- Arguments do not start with the parenthesis after them. -/
theorem Parses.args_front {ts r : List Token} {es : List Expr} (h : Parses (readArgs n ts) es r) :
    frontSymbol? (· == .rParen) ts = none := by
  obtain ⟨e, r₀, he, -⟩ := parses_readArgs.1 h
  obtain ⟨⟨x, l⟩, ts, rfl, hopens⟩ := he.opens
  cases x with
  | symbol s => cases s <;> first | rfl | cases hopens
  | _ => rfl

-- a phrase that has the same tokens as its part is on a looser level, which counts beside the
-- length
mutual

theorem parses_expr {ts : List Token} {e : Expr} (h : Phrase .expr ts e) {rest : List Token}
    (hstop : Stops 5 rest) : Parses (readExpr n (ts ++ rest)) e rest := by
  cases h with
  | comparison h =>
    have hread := parses_comparison h (hstop.mono (by decide))
    exact parses_readExpr.2 ⟨e, rest, hread, (atFront_of_none hstop.expr).2 ⟨rfl, rfl⟩⟩
  | @choose ts ts₁ ts₂ c a b l l' hc ha hb =>
    have hts : ts ++ ⟨.symbol .question, l⟩ :: ts₁ ++ ⟨.symbol .colon, l'⟩ :: ts₂ ++ rest
        = ts ++ ⟨.symbol .question, l⟩ :: (ts₁ ++ ⟨.symbol .colon, l'⟩ :: (ts₂ ++ rest)) := by simp
    have hfirst := parses_comparison hc (stops_of_symbol (s := .question) (by decide) l
      (ts₁ ++ ⟨.symbol .colon, l'⟩ :: (ts₂ ++ rest)))
    have hmiddle := parses_expr ha (stops_of_symbol (s := .colon) (by decide) l' (ts₂ ++ rest))
    have hlast := parses_expr hb hstop
    -- the condition ends before its question mark and the first choice before its colon; the second
    -- ends with the whole
    rw [hts]
    refine parses_readExpr.2 ⟨c, _, hfirst, .inr ⟨.question, l, _, rfl, rfl, ?_⟩⟩
    exact ⟨a, _, hmiddle, (), _, parses_readSymbol.2 ⟨l', rfl⟩, b, rest, hlast, rfl, rfl⟩
termination_by 8 * ts.length + 6
decreasing_by all_goals
  (subst_eqs; first | omega | (simp only [List.length_append, List.length_cons]; omega))

theorem parses_comparison {ts : List Token} {e : Expr} (h : Phrase .comparison ts e)
    {rest : List Token} (hstop : Stops 4 rest) : Parses (readComparison n (ts ++ rest)) e rest := by
  have hstop₃ : Stops 3 rest := hstop.mono (by decide)
  cases h with
  | sum h =>
    have hread := parses_sum h (hstop.mono (by decide)) hstop₃.sum
    exact parses_readComparison.2 ⟨e, rest, hread, (atFront_of_none hstop.comparison).2 ⟨rfl, rfl⟩⟩
  | @compare ts ts₁ a b s op l hop ha hb =>
    obtain ⟨hs, rfl⟩ := operator?_comparison.1 hop
    have hloose : s.looseness = 4 := by cases s <;> first | rfl | cases hs
    have hstops : Stops 3 (⟨.symbol s, l⟩ :: (ts₁ ++ rest)) :=
      stops_of_symbol (hloose ▸ by decide) l _
    have hfirst := parses_sum ha (hstops.mono (by decide)) hstops.sum
    have hlast := parses_sum hb (hstop.mono (by decide)) hstop₃.sum
    rw [List.append_assoc, List.cons_append]
    exact parses_readComparison.2 ⟨a, _, hfirst, .inr ⟨s, l, _, rfl, hs, b, rest, hlast, rfl, rfl⟩⟩
termination_by 8 * ts.length + 5
decreasing_by all_goals
  (subst_eqs; first | omega | (simp only [List.length_append, List.length_cons]; omega))

/-- After the first part of a sum the loop goes on from its tree. -/
theorem parses_sum {ts : List Token} {e : Expr} (h : Phrase .sum ts e) {rest : List Token}
    (hstop : Stops 2 rest) {a : Expr} {r : List Token} (hgo : Parses (continueSum n e rest) a r) :
    Parses (readSum n (ts ++ rest)) a r := by
  cases h with
  | product h =>
    exact parses_readSum.2 ⟨e, rest, parses_product h (hstop.mono (by decide)) hstop.product, hgo⟩
  | @add ts ts₁ x y s op l hop hx hy =>
    obtain ⟨hs, rfl⟩ := operator?_sum.1 hop
    have hloose : s.looseness = 3 := by cases s <;> first | rfl | cases hs
    have hstops : Stops 2 (⟨.symbol s, l⟩ :: (ts₁ ++ rest)) :=
      stops_of_symbol (hloose ▸ by decide) l _
    -- the rule has the last operand apart, and the loop comes to it last: its step is added to what
    -- the loop does after
    have hlast := parses_product hy (hstop.mono (by decide)) hstop.product
    have hloop : Parses (continueSum n x (⟨.symbol s, l⟩ :: (ts₁ ++ rest))) a r :=
      parses_continueSum.2 (.inr ⟨s, l, _, rfl, hs, y, rest, hlast, hgo⟩)
    rw [List.append_assoc, List.cons_append]
    exact parses_sum hx hstops hloop
termination_by 8 * ts.length + 4
decreasing_by all_goals
  (subst_eqs; first | omega | (simp only [List.length_append, List.length_cons]; omega))

/-- After the first part of a product the loop goes on from its tree. -/
theorem parses_product {ts : List Token} {e : Expr} (h : Phrase .product ts e) {rest : List Token}
    (hstop : Stops 1 rest) {a : Expr} {r : List Token}
    (hgo : Parses (continueProduct n e rest) a r) : Parses (readProduct n (ts ++ rest)) a r := by
  cases h with
  | unary h => exact parses_readProduct.2 ⟨e, rest, parses_unary h hstop, hgo⟩
  | @multiply ts ts₁ x y s op l hop hx hy =>
    obtain ⟨hs, rfl⟩ := operator?_product.1 hop
    have hloose : s.looseness = 2 := by cases s <;> first | rfl | cases hs
    have hstops : Stops 1 (⟨.symbol s, l⟩ :: (ts₁ ++ rest)) :=
      stops_of_symbol (hloose ▸ by decide) l _
    have hlast := parses_unary hy hstop
    have hloop : Parses (continueProduct n x (⟨.symbol s, l⟩ :: (ts₁ ++ rest))) a r :=
      parses_continueProduct.2 (.inr ⟨s, l, _, rfl, hs, y, rest, hlast, hgo⟩)
    rw [List.append_assoc, List.cons_append]
    exact parses_product hx hstops hloop
termination_by 8 * ts.length + 3
decreasing_by all_goals
  (subst_eqs; first | omega | (simp only [List.length_append, List.length_cons]; omega))

theorem parses_unary {ts : List Token} {e : Expr} (h : Phrase .unary ts e) {rest : List Token}
    (hstop : Stops 1 rest) : Parses (readUnary n (ts ++ rest)) e rest := by
  cases h with
  | calls h => exact parses_calls h hstop.calls
  | @sign ts a s op l hop ha =>
    obtain ⟨hs, rfl⟩ := operator?_unary.1 hop
    exact parses_readUnary.2 (.inr ⟨s, l, _, rfl, hs, a, rest, parses_unary ha hstop, rfl, rfl⟩)
termination_by 8 * ts.length + 2
decreasing_by all_goals (subst_eqs; first | omega | (simp only [List.length_cons]; omega))

/-- After the first calls of a phrase the loop goes on from their tree. -/
theorem parses_calls {ts : List Token} {e : Expr} (h : Phrase .calls ts e) {rest : List Token}
    {a : Expr} {r : List Token} (hgo : Parses (continueCalls n e rest) a r) :
    Parses (readUnary n (ts ++ rest)) a r := by
  cases h with
  | primary h => exact parses_factor (parses_primary h rest) hgo
  | @call ts ts₁ f args l l' hf hargs =>
    have hts : ts ++ ⟨.symbol .lParen, l⟩ :: ts₁ ++ [⟨.symbol .rParen, l'⟩] ++ rest
        = ts ++ ⟨.symbol .lParen, l⟩ :: (ts₁ ++ ⟨.symbol .rParen, l'⟩ :: rest) := by simp
    have hloop : Parses (continueCalls n f
        (⟨.symbol .lParen, l⟩ :: (ts₁ ++ ⟨.symbol .rParen, l'⟩ :: rest))) a r := by
      refine parses_continueCalls.2 (.inr ⟨.lParen, l, _, rfl, rfl, ?_⟩)
      cases hargs with
      | none => exact .inr ⟨.rParen, l', rest, rfl, rfl, hgo⟩
      | some hlisted =>
        have hread := parses_listed hlisted l' rest
        exact .inl ⟨hread.args_front, args, rest, hread, hgo⟩
    rw [hts]
    exact parses_calls hf hloop
termination_by 8 * ts.length + 1
decreasing_by all_goals
  (subst_eqs; first | omega | (simp only [List.length_append, List.length_cons]; omega))

theorem parses_primary {ts : List Token} {e : Expr} (h : Phrase .primary ts e) (rest : List Token) :
    Parses (readPrimary n (ts ++ rest)) e rest := by
  cases h with
  | atom hatom => exact parses_readPrimary.2 (.inl ⟨hatom, rfl⟩)
  | @parens ts e l l' h =>
    have hts : ⟨.symbol .lParen, l⟩ :: ts ++ [⟨.symbol .rParen, l'⟩] ++ rest
        = ⟨.symbol .lParen, l⟩ :: (ts ++ ⟨.symbol .rParen, l'⟩ :: rest) := by simp
    have hread := parses_expr h (stops_of_symbol (s := .rParen) (by decide) l' rest)
    rw [hts]
    exact parses_readPrimary.2
      (.inr ⟨rfl, e, _, hread, (), rest, parses_readSymbol.2 ⟨l', rfl⟩, rfl, rfl⟩)
termination_by 8 * ts.length
decreasing_by all_goals
  (subst_eqs; first | omega | (simp only [List.length_append, List.length_cons]; omega))

theorem parses_listed {ts : List Token} {es : List Expr} (h : Listed ts es) (l : Nat)
    (rest : List Token) : Parses (readArgs n (ts ++ ⟨.symbol .rParen, l⟩ :: rest)) es rest := by
  cases h with
  | last h =>
    have hread := parses_expr h (stops_of_symbol (s := .rParen) (by decide) l rest)
    exact parses_readArgs.2 ⟨_, _, hread, .inr ⟨.rParen, l, rest, rfl, rfl, rfl, rfl⟩⟩
  | @more ts ts₁ e es l' h hes =>
    have hread := parses_expr h (stops_of_symbol (s := .comma) (by decide) l'
      (ts₁ ++ ⟨.symbol .rParen, l⟩ :: rest))
    rw [List.append_assoc, List.cons_append]
    refine parses_readArgs.2 ⟨e, _, hread, .inl ⟨rfl, (), _, parses_readSymbol.2 ⟨l', rfl⟩, ?_⟩⟩
    exact ⟨es, rest, parses_listed hes l rest, rfl, rfl⟩
termination_by 8 * ts.length + 7
decreasing_by all_goals
  (subst_eqs; first | omega | (simp only [List.length_append, List.length_cons]; omega))

end

/-! ## Statements -/

/-- The tokens do not start with the word for another case. -/
def NoElse (ts : List Token) : Prop := ∀ l r, ts ≠ ⟨.keyword .elseWord, l⟩ :: r

theorem Parses.stmt_front {ts r : List Token} {st : Stmt} (h : Parses (readStmt n ts) st r) :
    frontSymbol? (· == .rBrace) ts = none ∧ NoElse ts := by
  obtain ⟨⟨x, l⟩, ts, rfl, hopens⟩ := h.stmt_opens
  constructor
  · cases x with
    | symbol s => cases s <;> first | rfl | (rcases hopens with hopens | hopens <;> cases hopens)
    | _ => rfl
  · rintro l r heq
    cases heq
    rcases hopens with hopens | hopens <;> cases hopens

theorem Parses.stmts_front {ts r : List Token} {body : List Stmt}
    (h : Parses (readStmts n ts) body r) : NoElse ts := by
  rcases parses_readStmts.1 h with ⟨-, st, r₀, hst, -⟩ | ⟨s, l, r₀, rfl, -⟩
  · exact hst.stmt_front.2
  · rintro l' r' heq
    cases heq

/-- An expression with its semicolon. -/
theorem parses_ended {ts ends : List Token} {e : Expr} (h : Phrase .expr ts e)
    (hends : Ending true ends) (rest : List Token) :
    Parses (readEnded n (ts ++ ends ++ rest)) e rest := by
  cases hends with
  | none hfalse => cases hfalse
  | @semi l =>
    have hread := parses_expr (n := n) h (stops_of_symbol (s := .semi) (by decide) l rest)
    rw [List.append_assoc]
    exact parses_readEnded.2 ⟨e, _, hread, rfl, rfl⟩

/-- An expression with its semicolon does not look like an assignment: of the two tokens of one,
only the name can be an expression. -/
theorem assigned?_eq_none {ts ends : List Token} {e : Expr} (h : Phrase .expr ts e)
    (hends : Ending true ends) (rest : List Token) : assigned? (ts ++ ends ++ rest) = none := by
  cases hends with
  | none hfalse => cases hfalse
  | @semi l =>
    refine Option.eq_none_iff_forall_ne_some.2 fun name hname => ?_
    obtain ⟨l₀, l₁, r, heq⟩ := assigned?_eq_some.1 hname
    have hname : Phrase .expr [⟨.ident name, l₀⟩] (.name name) :=
      .comparison (.sum (.product (.unary (.calls (.primary (.atom rfl))))))
    -- the name alone would be read as an expression as well, and what is read from the same tokens
    -- is one thing
    have hshort := parses_expr (n := 0) hname (stops_of_symbol (s := .assign) (by decide) l₁ r)
    have hread := parses_expr (n := 0) h (stops_of_symbol (s := .semi) (by decide) l rest)
    rw [List.append_assoc] at heq
    rw [show ts ++ ⟨.symbol .semi, l⟩ :: rest = _ from heq] at hread
    cases (hshort.unique hread).2

theorem Sentence.ne_nil {strict : Bool} {ts : List Token} {st : Stmt} (h : Sentence strict ts st) :
    ts ≠ [] := by
  cases h with
  | conditional h => cases h <;> exact nofun
  | _ => exact nofun

/-- An expression stops before a block. -/
theorem Parses.block_stops {ts r : List Token} {body : List Stmt}
    (h : Parses (readBlock n ts) body r) : Stops 5 ts := by
  obtain ⟨u, r₀, hopen, -⟩ := parses_readBlock.1 h
  obtain ⟨l, rfl⟩ := parses_readSymbol.1 hopen
  exact stops_of_symbol (by decide) l r₀

mutual

theorem parses_stmt {ts : List Token} {st : Stmt} (h : Sentence true ts st) {rest : List Token}
    (helse : NoElse rest) : Parses (readStmt n (ts ++ rest)) st rest := by
  cases h with
  | @assign ts ends e name l l' he hends =>
    have hread := parses_ended (n := n) he hends rest
    exact (parses_readStmt_plain rfl).2 (.inl ⟨name, rfl, e, rest, hread, rfl, rfl⟩)
  | conditional h =>
    obtain ⟨l, ts', rfl, hread⟩ := parses_if h helse
    exact readStmt_if ▸ hread
  | @whileLoop ts ts₁ c body l hc hbody =>
    have hblock := parses_block hbody rest
    have hcond := parses_expr (n := n) hc hblock.block_stops
    rw [List.cons_append, List.cons_append, List.append_assoc]
    exact parses_readStmt_while.2 ⟨c, _, hcond, body, rest, hblock, rfl, rfl⟩
  | @giveBack ts ends e l he hends =>
    cases hends with
    | none hfalse => cases hfalse
    | @semi l' =>
      have hread := parses_expr (n := n) he (stops_of_symbol (s := .semi) (by decide) l' rest)
      rw [List.cons_append, List.cons_append, List.append_assoc]
      exact parses_readStmt_return.2 ⟨e, _, parses_readGiven.2 (.inl hread), rfl, rfl⟩
  | @giveNothing ends l hends =>
    cases hends with
    | none hfalse => cases hfalse
    | semi => exact parses_readStmt_return.2 ⟨_, _,
      parses_readGiven.2 (.inr ⟨.semi, rfl, rfl⟩), rfl, rfl⟩
  | @expr t ts ends e he hends =>
    have hread := parses_ended (n := n) he hends rest
    have hassigned := assigned?_eq_none he hends rest
    -- no word that opens another statement can be the first token of an expression
    obtain ⟨e', r₀, hexpr, -⟩ := parses_readEnded.1 hread
    obtain ⟨t', ts', heq, hopens⟩ := hexpr.opens
    have hplain : t.lexeme.opensStmt = false := by
      obtain ⟨rfl, -⟩ := List.cons.inj heq
      obtain ⟨x, l⟩ := t
      cases x with
      | keyword k => cases k <;> first | rfl | cases hopens
      | _ => rfl
    exact (parses_readStmt_plain hplain).2 (.inr ⟨hassigned, e, rest, hread, rfl, rfl⟩)
termination_by 3 * ts.length + 1
decreasing_by all_goals subst_eqs; decreasing_tactic

/-- A conditional statement, on the line of its first word. -/
theorem parses_if {ts : List Token} {st : Stmt} (h : Conditional true ts st) {rest : List Token}
    (helse : NoElse rest) : ∃ l ts', ts = ⟨.keyword .ifWord, l⟩ :: ts' ∧
      Parses (readIf n l (⟨.keyword .ifWord, l⟩ :: ts' ++ rest)) st rest := by
  cases h with
  | @ifThen ts ts₁ c a l hc ha =>
    have hblock := parses_block ha rest
    have hcond := parses_expr (n := n) hc hblock.block_stops
    refine ⟨l, ts ++ ts₁, rfl, ?_⟩
    rw [List.cons_append, List.append_assoc]
    exact parses_readIf.2 ⟨(), _, parses_readKeyword.2 ⟨l, rfl⟩, c, _, hcond, a, rest, hblock,
      .inr (.inr ⟨helse, rfl, rfl⟩)⟩
  | @ifElse ts ts₁ ts₂ c a b l l' hc ha hb =>
    have hother := parses_block hb rest
    have hblock := parses_block ha (⟨.keyword .elseWord, l'⟩ :: (ts₂ ++ rest))
    have hcond := parses_expr (n := n) hc hblock.block_stops
    refine ⟨l, ts ++ ts₁ ++ ⟨.keyword .elseWord, l'⟩ :: ts₂, rfl, ?_⟩
    rw [List.cons_append, List.append_assoc, List.append_assoc]
    exact parses_readIf.2 ⟨(), _, parses_readKeyword.2 ⟨l, rfl⟩, c, _, hcond, a, _, hblock,
      .inr (.inl ⟨l', _, rfl, b, rest, hother, rfl, rfl⟩)⟩
  | @elseIf ts ts₁ ts₂ c a other l l' hc ha hother =>
    obtain ⟨l₁, ts₃, rfl, hread⟩ := parses_if hother helse
    have hblock :=
      parses_block ha (⟨.keyword .elseWord, l'⟩ :: ⟨.keyword .ifWord, l₁⟩ :: (ts₃ ++ rest))
    have hcond := parses_expr (n := n) hc hblock.block_stops
    refine ⟨l, ts ++ ts₁ ++ ⟨.keyword .elseWord, l'⟩ :: ⟨.keyword .ifWord, l₁⟩ :: ts₃, rfl, ?_⟩
    rw [List.cons_append, List.append_assoc, List.append_assoc]
    exact parses_readIf.2 ⟨(), _, parses_readKeyword.2 ⟨l, rfl⟩, c, _, hcond, a, _, hblock,
      .inl ⟨l', l₁, _, rfl, other, rest, hread, rfl, rfl⟩⟩
termination_by 3 * ts.length

theorem parses_block {ts : List Token} {body : List Stmt} (h : Braced true ts body)
    (rest : List Token) : Parses (readBlock n (ts ++ rest)) body rest := by
  cases h with
  | @mk ts body l l' hbody =>
    have hread := parses_stmts hbody l' rest
    rw [List.append_assoc]
    exact parses_readBlock.2 ⟨(), _, parses_readSymbol.2 ⟨l, rfl⟩, hread⟩
termination_by 3 * ts.length

theorem parses_stmts {ts : List Token} {body : List Stmt} (h : Sentences true ts body) (l : Nat)
    (rest : List Token) : Parses (readStmts n (ts ++ ⟨.symbol .rBrace, l⟩ :: rest)) body rest := by
  cases h with
  | nil => exact parses_readStmts.2 (.inr ⟨.rBrace, l, rest, rfl, rfl, rfl, rfl⟩)
  | @cons ts ts₁ st others hst hothers =>
    have hlength : 0 < ts.length := List.length_pos_iff.2 hst.ne_nil
    -- the later statements come first: a conditional may end here because no other case can follow
    have hread := parses_stmts hothers l rest
    have hfirst := parses_stmt hst hread.stmts_front
    rw [List.append_assoc]
    exact parses_readStmts.2
      (.inl ⟨hfirst.stmt_front.1, st, _, hfirst, others, rest, hread, rfl, rfl⟩)
termination_by 3 * ts.length + 2

end

/-! ## Functions and programs -/

theorem parses_params {ts : List Token} {names : List String} (h : NameList ts names) (line : Nat)
    {seen : List String} (hnodup : names.Nodup) (hseen : ∀ name ∈ names, name ∉ seen) (l : Nat)
    (rest : List Token) :
    Parses (readParams n line seen (ts ++ ⟨.symbol .rParen, l⟩ :: rest)) names rest := by
  induction h generalizing seen with
  | @last name l₀ =>
    exact parses_readParams.2 ⟨name, _, parses_readName.2 ⟨l₀, rfl⟩, hseen name List.mem_cons_self,
      .inr ⟨.rParen, l, rest, rfl, rfl, rfl, rfl⟩⟩
  | @more name ts names l₀ l₁ hnames ih =>
    obtain ⟨hnotMem, hnodup⟩ := List.nodup_cons.1 hnodup
    have hothers : ∀ other ∈ names, other ∉ name :: seen := by
      intro other hother hmem
      rcases List.mem_cons.1 hmem with rfl | hmem
      · exact hnotMem hother
      · exact hseen other (List.mem_cons_of_mem _ hother) hmem
    have hread := ih hnodup hothers
    exact parses_readParams.2 ⟨name, _, parses_readName.2 ⟨l₀, rfl⟩, hseen name List.mem_cons_self,
      .inl ⟨rfl, (), _, parses_readSymbol.2 ⟨l₁, rfl⟩, names, rest, hread, rfl, rfl⟩⟩

theorem parses_function {ts : List Token} {f : Function} (h : Definition true ts f)
    (hnodup : f.params.Nodup) (rest : List Token) :
    Parses (readFunction n (ts ++ rest)) f rest := by
  cases h with
  | @mk ts ts₁ name params body l l₁ l₂ l₃ hparams hbody =>
    have hblock := parses_block (n := n) hbody rest
    rw [List.append_assoc]
    refine parses_readFunction.2 ⟨(), _, parses_readKeyword.2 ⟨l, rfl⟩, name, _,
      parses_readName.2 ⟨l₁, rfl⟩, (), _, parses_readSymbol.2 ⟨l₂, rfl⟩, ?_⟩
    cases hparams with
    | none => exact .inr ⟨.rParen, l₃, _, rfl, rfl, body, rest, hblock, rfl, rfl⟩
    | some hnames =>
      have hread :=
        parses_params (n := n) hnames l hnodup (fun _ _ => List.not_mem_nil) l₃ (ts₁ ++ rest)
      have hfront : frontSymbol? (· == .rParen) (ts ++ ⟨.symbol .rParen, l₃⟩ :: (ts₁ ++ rest))
          = none := by
        cases hnames <;> rfl
      exact .inl ⟨hfront, params, _, hread, body, rest, hblock, rfl, rfl⟩

theorem readFunctions_of_program {ts : List Token} {fs : List Function} (h : Program true ts fs)
    (hnodup : ∀ f ∈ fs, f.params.Nodup) : readFunctions n ts = .ok fs := by
  induction h with
  | nil => exact readFunctions_eq_ok.2 (.inl ⟨rfl, rfl⟩)
  | @cons ts ts₁ f fs hf hfs ih =>
    obtain ⟨hfirst, hothers⟩ := List.forall_mem_cons.1 hnodup
    exact readFunctions_eq_ok.2 (.inr ⟨f, ts₁, parses_function hf hfirst ts₁, fs, ih hothers, rfl⟩)

/-- **The reader of tokens reads by the grammar.** What it accepts is a program, put together from
the tokens by the rules of the grammar, and the trees that it returns are those of the parts; no
function has a parameter twice. A program in which no semicolon is left out and no function has a
parameter twice is accepted, and read as it was put together. A text is read by reading its
tokens. -/
theorem readTokens_by_grammar :
    (∀ ts fs, readTokens ts = .ok fs → Program false ts fs ∧ ∀ f ∈ fs, f.params.Nodup)
    ∧ (∀ ts fs, Program true ts fs → (∀ f ∈ fs, f.params.Nodup) → readTokens ts = .ok fs)
    ∧ ∀ text, readProgram text = scan text >>= readTokens :=
  ⟨fun ts _ h => program_of_readFunctions ts h,
    fun _ _ h hnodup => readFunctions_of_program h hnodup, fun _ => rfl⟩

/-- A function that takes two numbers off its negated argument, one after the other. -/
def takingOff : Function where
  name := "f"
  params := ["a"]
  body := [
    .assign 2 "b" (.operator "-" [.operator "-" [.operator "neg" [.name "a"], .lit (.int 1)],
      .lit (.int 2)]),
    .giveBack 3 (.name "b")]
  line := 1

/-- The tokens of that function. -/
def takingOffTokens : List Token :=
  [⟨.keyword .function, 1⟩, ⟨.ident "f", 1⟩, ⟨.symbol .lParen, 1⟩, ⟨.ident "a", 1⟩,
    ⟨.symbol .rParen, 1⟩, ⟨.symbol .lBrace, 1⟩, ⟨.ident "b", 2⟩, ⟨.symbol .assign, 2⟩,
    ⟨.symbol .minus, 2⟩, ⟨.ident "a", 2⟩, ⟨.symbol .minus, 2⟩, ⟨.int 1, 2⟩, ⟨.symbol .minus, 2⟩,
    ⟨.int 2, 2⟩, ⟨.symbol .semi, 2⟩, ⟨.keyword .returnWord, 3⟩, ⟨.ident "b", 3⟩, ⟨.symbol .semi, 3⟩,
    ⟨.symbol .rBrace, 4⟩]

theorem program_takingOff : Program true takingOffTokens [takingOff] := by
  have hatom : ∀ {x : Lexeme} {e : Expr} {l : Nat}, x.atom? = some e → Phrase .unary [⟨x, l⟩] e :=
    fun h => .calls (.primary (.atom h))
  have hminus : ∀ {ts : List Token} {a : Expr} {i : Int64}, Phrase .sum ts a →
      Phrase .sum (ts ++ [⟨.symbol .minus, 2⟩, ⟨.int i, 2⟩]) (.operator "-" [a, .lit (.int i)]) :=
    fun h => .add rfl h (.unary (hatom rfl))
  have hneg : Phrase .sum [⟨.symbol .minus, 2⟩, ⟨.ident "a", 2⟩] (.operator "neg" [.name "a"]) :=
    .product (.unary (.sign rfl (hatom rfl)))
  have hassign : Sentence true
      (⟨.ident "b", 2⟩ :: ⟨.symbol .assign, 2⟩ :: _ ++ [⟨.symbol .semi, 2⟩]) (.assign 2 "b" _) :=
    .assign (.comparison (.sum (hminus (i := 2) (hminus (i := 1) hneg)))) .semi
  have hreturn : Sentence true [⟨.keyword .returnWord, 3⟩, ⟨.ident "b", 3⟩, ⟨.symbol .semi, 3⟩]
      (.giveBack 3 (.name "b")) :=
    .giveBack (.comparison (.sum (.product (.unary (hatom rfl))))) .semi
  have hbody : Braced true (⟨.symbol .lBrace, 1⟩ :: _ ++ [⟨.symbol .rBrace, 4⟩]) _ :=
    .mk (.cons hassign (.cons hreturn .nil))
  exact .cons (.mk (.some .last) hbody) .nil

/-- Differences associate to the left. -/
theorem readTokens_takingOff :
    readTokens takingOffTokens = .ok [takingOff] ∧ Program false takingOffTokens [takingOff] := by
  obtain ⟨hsound, hcomplete, -⟩ := readTokens_by_grammar
  have hread := hcomplete takingOffTokens [takingOff] program_takingOff (by decide)
  exact ⟨hread, (hsound _ _ hread).1⟩

end Interpose.Source
