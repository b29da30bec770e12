import Interpose.Proofs.Source.Reading

/-!
# What is read is a phrase

Whatever a reader takes off the front of the tokens is a phrase of its kind, and the tree that it
returns is the tree of the phrase. The loops that read on after a first operand start with a phrase
that has been read before, and what they add makes it a longer phrase of the same level.

The readers call each other, and so do the statements here. Each is about the tokens that are left,
which get fewer; without a token being taken, a reader goes on to one of a tighter level only.
-/

set_option autoImplicit false

namespace Interpose.Source

variable {n : Nat} {r : List Token}

/-! ## The table of operators -/

theorem operator?_comparison {s : Symbol} {op : String} :
    Level.comparison.operator? s = some op ↔ s.isComparison = true ∧ s.operator = op := by
  cases s <;> simp [Level.operator?, Symbol.isComparison, Symbol.operator, Symbol.spelling]

theorem operator?_sum {s : Symbol} {op : String} :
    Level.sum.operator? s = some op ↔ s.isAdditive = true ∧ s.operator = op := by
  cases s <;> simp [Level.operator?, Symbol.isAdditive, Symbol.operator, Symbol.spelling]

theorem operator?_product {s : Symbol} {op : String} :
    Level.product.operator? s = some op ↔ s.isMultiplicative = true ∧ s.operator = op := by
  cases s <;> simp [Level.operator?, Symbol.isMultiplicative, Symbol.operator, Symbol.spelling]

theorem operator?_unary {s : Symbol} {op : String} : Level.unary.operator? s = some op
    ↔ (s == .minus || s == .bang) = true ∧ (if s == .minus then "neg" else "!") = op := by
  cases s <;> simp [Level.operator?]

/-! ## Expressions -/

/-- The tokens begin with some of a kind, and the rest comes after these. -/
def Begins {α : Type} (Kind : List Token → α → Prop) (ts : List Token) (a : α) (r : List Token) :
    Prop :=
  ∃ taken, ts = taken ++ r ∧ Kind taken a

-- a phrase that has the same tokens as its part is on a looser level, which counts beside the
-- length
mutual

theorem begins_readExpr (ts : List Token) {e : Expr} {r : List Token}
    (h : Parses (readExpr n ts) e r) : Begins (Phrase .expr) ts e r := by
  obtain ⟨c, r₀, hc, hrest⟩ := parses_readExpr.1 h
  have hlt := hc.lt
  obtain ⟨ts₀, rfl, hphrase⟩ := begins_readComparison ts hc
  rcases hrest with ⟨-, rfl, rfl⟩ | ⟨s, l, r₁, rfl, hs, a, r₂, ha, u, r₃, hcolon, b, r₄,
    hb, rfl, rfl⟩
  · exact ⟨ts₀, rfl, .comparison hphrase⟩
  · obtain rfl := beq_iff_eq.1 hs
    have hlt₁ := ha.lt
    obtain ⟨l', rfl⟩ := parses_readSymbol.1 hcolon
    obtain ⟨ts₁, rfl, hphrase₁⟩ := begins_readExpr r₁ ha
    obtain ⟨ts₂, rfl, hphrase₂⟩ := begins_readExpr r₃ hb
    exact ⟨ts₀ ++ ⟨.symbol .question, l⟩ :: ts₁ ++ ⟨.symbol .colon, l'⟩ :: ts₂, by simp,
      .choose hphrase hphrase₁ hphrase₂⟩
termination_by 7 * ts.length + 5
decreasing_by all_goals
  subst_vars
  first | omega | (simp only [List.length_append, List.length_cons] at hlt ⊢; omega)

theorem begins_readComparison (ts : List Token) {e : Expr} {r : List Token}
    (h : Parses (readComparison n ts) e r) : Begins (Phrase .comparison) ts e r := by
  obtain ⟨a, r₀, ha, hrest⟩ := parses_readComparison.1 h
  have hlt := ha.lt
  obtain ⟨ts₀, rfl, hphrase⟩ := begins_readSum ts ha
  rcases hrest with ⟨-, rfl, rfl⟩ | ⟨s, l, r₁, rfl, hs, b, r₂, hb, rfl, rfl⟩
  · exact ⟨ts₀, rfl, .sum hphrase⟩
  · obtain ⟨ts₁, rfl, hphrase₁⟩ := begins_readSum r₁ hb
    exact ⟨ts₀ ++ ⟨.symbol s, l⟩ :: ts₁,
      by simp, .compare (operator?_comparison.2 ⟨hs, rfl⟩) hphrase hphrase₁⟩
termination_by 7 * ts.length + 4
decreasing_by all_goals
  subst_vars
  first | omega | (simp only [List.length_append, List.length_cons] at hlt ⊢; omega)

theorem begins_readSum (ts : List Token) {e : Expr} {r : List Token}
    (h : Parses (readSum n ts) e r) : Begins (Phrase .sum) ts e r := by
  obtain ⟨a, r₀, ha, hrest⟩ := parses_readSum.1 h
  have hlt := ha.lt
  obtain ⟨ts₀, rfl, hphrase⟩ := begins_readProduct ts ha
  obtain ⟨ts₁, rfl, hphrase₁⟩ := begins_continueSum r₀ hrest (.product hphrase)
  exact ⟨_, by simp, hphrase₁⟩
termination_by 7 * ts.length + 3
decreasing_by all_goals (subst_vars; omega)

/-- What is added to a sum makes it a longer sum. -/
theorem begins_continueSum (ts : List Token) {lhs e : Expr} {before r : List Token}
    (h : Parses (continueSum n lhs ts) e r) (hlhs : Phrase .sum before lhs) :
    ∃ taken, ts = taken ++ r ∧ Phrase .sum (before ++ taken) e := by
  rcases parses_continueSum.1 h with ⟨-, rfl, rfl⟩ | ⟨s, l, r₀, rfl, hs, b, r₁, hb, hrest⟩
  · exact ⟨[], rfl, by simpa using hlhs⟩
  · have hlt := hb.lt
    obtain ⟨ts₀, rfl, hphrase⟩ := begins_readProduct r₀ hb
    -- with one more operand, what was read before is a sum again, and the loop goes on after it
    have hlonger := Phrase.add (l := l) (operator?_sum.2 ⟨hs, rfl⟩) hlhs hphrase
    obtain ⟨ts₁, rfl, hphrase₁⟩ := begins_continueSum r₁ hrest hlonger
    exact ⟨⟨.symbol s, l⟩ :: ts₀ ++ ts₁, by simp, by simpa using hphrase₁⟩
termination_by 7 * ts.length
decreasing_by all_goals
  subst_vars
  first | omega | (simp only [List.length_append, List.length_cons] at hlt ⊢; omega)

theorem begins_readProduct (ts : List Token) {e : Expr} {r : List Token}
    (h : Parses (readProduct n ts) e r) : Begins (Phrase .product) ts e r := by
  obtain ⟨a, r₀, ha, hrest⟩ := parses_readProduct.1 h
  have hlt := ha.lt
  obtain ⟨ts₀, rfl, hphrase⟩ := begins_readUnary ts ha
  obtain ⟨ts₁, rfl, hphrase₁⟩ := begins_continueProduct r₀ hrest (.unary hphrase)
  exact ⟨_, by simp, hphrase₁⟩
termination_by 7 * ts.length + 2
decreasing_by all_goals (subst_vars; omega)

/-- What is added to a product makes it a longer product. -/
theorem begins_continueProduct (ts : List Token) {lhs e : Expr} {before r : List Token}
    (h : Parses (continueProduct n lhs ts) e r) (hlhs : Phrase .product before lhs) :
    ∃ taken, ts = taken ++ r ∧ Phrase .product (before ++ taken) e := by
  rcases parses_continueProduct.1 h with ⟨-, rfl, rfl⟩ | ⟨s, l, r₀, rfl, hs, b, r₁, hb, hrest⟩
  · exact ⟨[], rfl, by simpa using hlhs⟩
  · have hlt := hb.lt
    obtain ⟨ts₀, rfl, hphrase⟩ := begins_readUnary r₀ hb
    have hlonger := Phrase.multiply (l := l) (operator?_product.2 ⟨hs, rfl⟩) hlhs hphrase
    obtain ⟨ts₁, rfl, hphrase₁⟩ := begins_continueProduct r₁ hrest hlonger
    exact ⟨⟨.symbol s, l⟩ :: ts₀ ++ ts₁, by simp, by simpa using hphrase₁⟩
termination_by 7 * ts.length
decreasing_by all_goals
  subst_vars
  first | omega | (simp only [List.length_append, List.length_cons] at hlt ⊢; omega)

theorem begins_readUnary (ts : List Token) {e : Expr} {r : List Token}
    (h : Parses (readUnary n ts) e r) : Begins (Phrase .unary) ts e r := by
  rcases parses_readUnary.1 h with ⟨-, f, r₀, hf, hrest⟩ | ⟨s, l, r₀, rfl, hs, a, r₁, ha, rfl, rfl⟩
  · have hlt := hf.lt
    obtain ⟨ts₀, rfl, hphrase⟩ := begins_readPrimary ts hf
    obtain ⟨ts₁, rfl, hphrase₁⟩ := begins_continueCalls r₀ hrest (.primary hphrase)
    exact ⟨_, by simp, .calls hphrase₁⟩
  · obtain ⟨ts₀, rfl, hphrase⟩ := begins_readUnary r₀ ha
    exact ⟨⟨.symbol s, l⟩ :: ts₀, rfl, .sign (operator?_unary.2 ⟨hs, rfl⟩) hphrase⟩
termination_by 7 * ts.length + 1
decreasing_by all_goals (subst_vars; first | omega | (simp only [List.length_cons]; omega))

/-- What is added to a call makes it a call of its result. -/
theorem begins_continueCalls (ts : List Token) {f e : Expr} {before r : List Token}
    (h : Parses (continueCalls n f ts) e r) (hf : Phrase .calls before f) :
    ∃ taken, ts = taken ++ r ∧ Phrase .calls (before ++ taken) e := by
  rcases parses_continueCalls.1 h with ⟨-, rfl, rfl⟩ | ⟨s, l, r₀, rfl, hs, hrest⟩
  · exact ⟨[], rfl, by simpa using hf⟩
  · obtain rfl := beq_iff_eq.1 hs
    rcases hrest with ⟨-, args, r₁, hargs, hrest⟩ | ⟨s', l', r₁, rfl, hs', hrest⟩
    · have hlt := hargs.lt
      obtain ⟨ts₀, l', rfl, hlisted⟩ := begins_readArgs r₀ hargs
      have hcall : Phrase .calls (before ++ ⟨.symbol .lParen, l⟩ :: ts₀ ++ [⟨.symbol .rParen, l'⟩])
          (.call f args) :=
        .call hf (.some hlisted)
      obtain ⟨ts₁, rfl, hphrase⟩ := begins_continueCalls r₁ hrest hcall
      exact ⟨⟨.symbol .lParen, l⟩ :: ts₀ ++ [⟨.symbol .rParen, l'⟩] ++ ts₁,
        by simp, by simpa using hphrase⟩
    · obtain rfl := beq_iff_eq.1 hs'
      have hcall : Phrase .calls (before ++ ⟨.symbol .lParen, l⟩ :: [] ++ [⟨.symbol .rParen, l'⟩])
          (.call f []) :=
        .call hf .none
      obtain ⟨ts₁, rfl, hphrase⟩ := begins_continueCalls r₁ hrest hcall
      exact ⟨⟨.symbol .lParen, l⟩ :: ⟨.symbol .rParen, l'⟩ :: ts₁, rfl, by simpa using hphrase⟩
termination_by 7 * ts.length
decreasing_by all_goals (subst_vars; first | omega | (simp only [List.length_cons]; omega))

/-- Arguments are read up to and with the parenthesis after them. -/
theorem begins_readArgs (ts : List Token) {es : List Expr} {r : List Token}
    (h : Parses (readArgs n ts) es r) :
    ∃ taken l, ts = taken ++ ⟨.symbol .rParen, l⟩ :: r ∧ Listed taken es := by
  obtain ⟨e, r₀, he, hrest⟩ := parses_readArgs.1 h
  have hlt := he.lt
  obtain ⟨ts₀, rfl, hphrase⟩ := begins_readExpr ts he
  rcases hrest with ⟨-, u, r₁, hcomma, args, r₂, hargs, rfl, rfl⟩ | ⟨s, l, r₁, rfl, hs, rfl, rfl⟩
  · obtain ⟨l, rfl⟩ := parses_readSymbol.1 hcomma
    obtain ⟨ts₁, l', rfl, hlisted⟩ := begins_readArgs r₁ hargs
    exact ⟨ts₀ ++ ⟨.symbol .comma, l⟩ :: ts₁, l', by simp, .more hphrase hlisted⟩
  · obtain rfl := beq_iff_eq.1 hs
    exact ⟨ts₀, l, rfl, .last hphrase⟩
termination_by 7 * ts.length + 6
decreasing_by all_goals
  subst_vars
  first | omega | (simp only [List.length_append, List.length_cons] at hlt ⊢; omega)

theorem begins_readPrimary (ts : List Token) {e : Expr} {r : List Token}
    (h : Parses (readPrimary n ts) e r) : Begins (Phrase .primary) ts e r := by
  obtain ⟨⟨x, l⟩, ts, rfl⟩ := List.exists_cons_of_ne_nil h.ne_nil
  rcases parses_readPrimary.1 h with ⟨hatom, rfl⟩ | ⟨rfl, e', r₁, he, u, r₂, hclose, rfl, rfl⟩
  · exact ⟨[⟨x, l⟩], rfl, .atom hatom⟩
  · obtain ⟨l', rfl⟩ := parses_readSymbol.1 hclose
    obtain ⟨ts₀, rfl, hphrase⟩ := begins_readExpr ts he
    exact ⟨⟨.symbol .lParen, l⟩ :: ts₀ ++ [⟨.symbol .rParen, l'⟩], by simp, .parens hphrase⟩
termination_by 7 * ts.length
decreasing_by all_goals (subst_vars; simp only [List.length_cons]; omega)

end

/-! ## Statements -/

/-- The semicolon after a statement is taken if there is one. -/
theorem begins_skipSymbol (ts : List Token) :
    ∃ ends, ts = ends ++ (skipSymbol .semi ts).1 ∧ Ending false ends := by
  unfold skipSymbol
  split
  · next t ts =>
    split
    · next ht =>
      obtain ⟨x, l⟩ := t
      obtain rfl := isSymbol_iff.1 ht
      exact ⟨[⟨.symbol .semi, l⟩], rfl, .semi⟩
    · exact ⟨[], rfl, .none rfl⟩
  · exact ⟨[], rfl, .none rfl⟩

theorem begins_readEnded {ts : List Token} {e : Expr} (h : Parses (readEnded n ts) e r) :
    ∃ t taken ends, ts = t :: taken ++ ends ++ r ∧ Phrase .expr (t :: taken) e
      ∧ Ending false ends := by
  obtain ⟨e', r₀, he, rfl, rfl⟩ := parses_readEnded.1 h
  have hlt := he.lt
  obtain ⟨ts₀, rfl, hphrase⟩ := begins_readExpr ts he
  obtain ⟨ends, hr₀, hends⟩ := begins_skipSymbol r₀
  -- the line of a statement is that of its first token, so there must be one
  obtain ⟨t, taken, rfl⟩ : ∃ t taken, ts₀ = t :: taken := by
    refine List.exists_cons_of_ne_nil ?_
    rintro rfl
    exact Nat.lt_irrefl _ hlt
  exact ⟨t, taken, ends, by rw [List.append_assoc, ← hr₀], hphrase, hends⟩

mutual

theorem begins_readBlock (ts : List Token) {body : List Stmt} {r : List Token}
    (h : Parses (readBlock n ts) body r) : Begins (Braced false) ts body r := by
  obtain ⟨u, r₀, hopen, hbody⟩ := parses_readBlock.1 h
  obtain ⟨l, rfl⟩ := parses_readSymbol.1 hopen
  obtain ⟨ts₀, l', rfl, hsentences⟩ := begins_readStmts r₀ hbody
  exact ⟨⟨.symbol .lBrace, l⟩ :: ts₀ ++ [⟨.symbol .rBrace, l'⟩], by simp, .mk hsentences⟩
termination_by 3 * ts.length
decreasing_by all_goals (subst_vars; simp only [List.length_cons]; omega)

/-- Statements are read up to and with the brace after them. -/
theorem begins_readStmts (ts : List Token) {body : List Stmt} {r : List Token}
    (h : Parses (readStmts n ts) body r) :
    ∃ taken l, ts = taken ++ ⟨.symbol .rBrace, l⟩ :: r ∧ Sentences false taken body := by
  rcases parses_readStmts.1 h with
    ⟨-, st, r₀, hst, rest, r₁, hrest, rfl, rfl⟩ | ⟨s, l, r₀, rfl, hs, rfl, rfl⟩
  · have hlt := hst.lt
    obtain ⟨ts₀, rfl, hsentence⟩ := begins_readStmt ts hst
    obtain ⟨ts₁, l, rfl, hsentences⟩ := begins_readStmts r₀ hrest
    exact ⟨ts₀ ++ ts₁, l, by simp, .cons hsentence hsentences⟩
  · obtain rfl := beq_iff_eq.1 hs
    exact ⟨[], l, rfl, .nil⟩
termination_by 3 * ts.length + 2
decreasing_by all_goals (subst_vars; omega)

theorem begins_readStmt (ts : List Token) {st : Stmt} {r : List Token}
    (h : Parses (readStmt n ts) st r) : Begins (Sentence false) ts st r := by
  obtain ⟨⟨x, l⟩, ts, rfl⟩ := List.exists_cons_of_ne_nil h.ne_nil
  rcases hopens : x.opensStmt with _ | _
  · rcases (parses_readStmt_plain hopens).1 h with
      ⟨name, hname, e, r₀, he, rfl, rfl⟩ | ⟨-, e, r₀, he, rfl, rfl⟩
    · obtain ⟨l₀, l₁, ts₀, heq⟩ := assigned?_eq_some.1 hname
      cases heq
      obtain ⟨t, ts₁, ends, hts₀, hphrase, hends⟩ := begins_readEnded he
      exact ⟨⟨.ident name, l⟩ :: ⟨.symbol .assign, l₁⟩ :: (t :: ts₁) ++ ends,
        congrArg (_ :: _ :: ·) hts₀, .assign hphrase hends⟩
    · obtain ⟨t, ts₁, ends, hts, hphrase, hends⟩ := begins_readEnded he
      cases hts
      exact ⟨_, rfl, .expr hphrase hends⟩
  · rcases Lexeme.opensStmt_iff.1 hopens with rfl | rfl | rfl
    · obtain ⟨ts₀, hts, hconditional⟩ := begins_readIf ts (readStmt_if ▸ h)
      exact ⟨ts₀, hts, .conditional hconditional⟩
    · obtain ⟨c, r₀, hc, body, r₁, hbody, rfl, rfl⟩ := parses_readStmt_while.1 h
      have hlt := hc.lt
      obtain ⟨ts₀, rfl, hphrase⟩ := begins_readExpr ts hc
      obtain ⟨ts₁, rfl, hbraced⟩ := begins_readBlock r₀ hbody
      exact ⟨⟨.keyword .whileWord, l⟩ :: ts₀ ++ ts₁, by simp, .whileLoop hphrase hbraced⟩
    · obtain ⟨e, r₀, he, rfl, rfl⟩ := parses_readStmt_return.1 h
      obtain ⟨ends, hr₀, hends⟩ := begins_skipSymbol r₀
      rcases parses_readGiven.1 he with he | ⟨-, rfl, rfl⟩
      · obtain ⟨ts₀, rfl, hphrase⟩ := begins_readExpr ts he
        exact ⟨⟨.keyword .returnWord, l⟩ :: ts₀ ++ ends, by simp [← hr₀], .giveBack hphrase hends⟩
      · exact ⟨⟨.keyword .returnWord, l⟩ :: ends, congrArg (_ :: ·) hr₀, .giveNothing hends⟩
termination_by 3 * ts.length + 1
decreasing_by all_goals (subst_vars; first | omega | (simp only [List.length_cons]; omega))

/-- A conditional statement, on the line of its first word. -/
theorem begins_readIf (ts : List Token) {l : Nat} {st : Stmt} {r : List Token}
    (h : Parses (readIf n l (⟨.keyword .ifWord, l⟩ :: ts)) st r) :
    Begins (Conditional false) (⟨.keyword .ifWord, l⟩ :: ts) st r := by
  obtain ⟨u, r₀, hword, c, r₁, hc, a, r₂, ha, hrest⟩ := parses_readIf.1 h
  obtain ⟨l₀, heq⟩ := parses_readKeyword.1 hword
  cases heq
  have hlt₁ := hc.lt
  have hlt₂ := ha.lt
  obtain ⟨ts₁, rfl, hphrase⟩ := begins_readExpr ts hc
  obtain ⟨ts₂, rfl, hbraced⟩ := begins_readBlock r₁ ha
  rcases hrest with ⟨l₁, l₂, r₃, rfl, other, r₄, hother, rfl, rfl⟩ | ⟨l₁, r₃, rfl, b, r₄,
    hb, rfl, rfl⟩
    | ⟨-, rfl, rfl⟩
  · obtain ⟨ts₃, hts₃, hconditional⟩ := begins_readIf r₃ hother
    exact ⟨⟨.keyword .ifWord, l⟩ :: ts₁ ++ ts₂ ++ ⟨.keyword .elseWord, l₁⟩ :: ts₃, by simp [← hts₃],
      .elseIf hphrase hbraced hconditional⟩
  · obtain ⟨ts₃, rfl, hbraced₁⟩ := begins_readBlock r₃ hb
    exact ⟨⟨.keyword .ifWord, l⟩ :: ts₁ ++ ts₂ ++ ⟨.keyword .elseWord, l₁⟩ :: ts₃, by simp,
      .ifElse hphrase hbraced hbraced₁⟩
  · exact ⟨⟨.keyword .ifWord, l⟩ :: ts₁ ++ ts₂, by simp, .ifThen hphrase hbraced⟩
termination_by 3 * ts.length
decreasing_by all_goals
  subst_vars
  first | omega | (simp only [List.length_append, List.length_cons] at hlt₁ hlt₂ ⊢; omega)

end

/-! ## Functions and programs -/

/-- Parameters are read up to and with the parenthesis after them. None occurs twice or has been
seen before. -/
theorem begins_readParams {line : Nat} {seen names : List String} (ts : List Token) {r : List Token}
    (h : Parses (readParams n line seen ts) names r) :
    (∃ taken l, ts = taken ++ ⟨.symbol .rParen, l⟩ :: r
      ∧ NameList taken names) ∧ names.Nodup ∧ ∀ name ∈ names, name ∉ seen := by
  obtain ⟨name, r₀, hname, hseen, hrest⟩ := parses_readParams.1 h
  obtain ⟨l, rfl⟩ := parses_readName.1 hname
  rcases hrest with ⟨-, u, r₁, hcomma, others, r₂, hothers, rfl, rfl⟩ | ⟨s, l', r₁, rfl,
    hs, rfl, rfl⟩
  · obtain ⟨l', rfl⟩ := parses_readSymbol.1 hcomma
    obtain ⟨⟨ts₁, l₁, rfl, hnames⟩, hnodup, hnotMem⟩ := begins_readParams r₁ hothers
    refine ⟨⟨⟨.ident name, l⟩ :: ⟨.symbol .comma, l'⟩ :: ts₁, l₁, rfl, .more hnames⟩,
      List.nodup_cons.2 ⟨?_, hnodup⟩, ?_⟩
    · exact fun hmem => hnotMem name hmem List.mem_cons_self
    · rintro other hother
      rcases List.mem_cons.1 hother with rfl | hother
      · exact hseen
      · exact fun hmem => hnotMem other hother (List.mem_cons_of_mem _ hmem)
  · obtain rfl := beq_iff_eq.1 hs
    refine ⟨⟨[⟨.ident name, l⟩], l', rfl, .last⟩, List.pairwise_singleton .., ?_⟩
    rintro other hother
    exact List.mem_singleton.1 hother ▸ hseen
termination_by ts.length

theorem begins_readFunction {ts : List Token} {f : Function} (h : Parses (readFunction n ts) f r) :
    Begins (Definition false) ts f r ∧ f.params.Nodup := by
  obtain ⟨u, r₀, hword, name, r₁, hname, u', r₂, hopen, hrest⟩ := parses_readFunction.1 h
  obtain ⟨l, rfl⟩ := parses_readKeyword.1 hword
  obtain ⟨l₁, rfl⟩ := parses_readName.1 hname
  obtain ⟨l₂, rfl⟩ := parses_readSymbol.1 hopen
  rcases hrest with ⟨-, params, r₃, hparams, body, r₄, hbody, rfl, rfl⟩
    | ⟨s, l₃, r₃, rfl, hs, body, r₄, hbody, rfl, rfl⟩
  · obtain ⟨⟨ts₁, l₃, rfl, hnames⟩, hnodup, -⟩ := begins_readParams _ hparams
    obtain ⟨ts₂, rfl, hbraced⟩ := begins_readBlock r₃ hbody
    exact ⟨⟨⟨.keyword .function, l⟩ :: ⟨.ident name, l₁⟩ :: ⟨.symbol .lParen, l₂⟩ :: ts₁
      ++ ⟨.symbol .rParen, l₃⟩ :: ts₂, by simp, .mk (.some hnames) hbraced⟩, hnodup⟩
  · obtain rfl := beq_iff_eq.1 hs
    obtain ⟨ts₂, rfl, hbraced⟩ := begins_readBlock r₃ hbody
    exact ⟨⟨⟨.keyword .function, l⟩ :: ⟨.ident name, l₁⟩ :: ⟨.symbol .lParen, l₂⟩ :: []
      ++ ⟨.symbol .rParen, l₃⟩ :: ts₂, rfl, .mk .none hbraced⟩, List.nodup_nil⟩

/-- All that is read as functions is a program, whose functions have distinct parameters. -/
theorem program_of_readFunctions (ts : List Token) {fs : List Function}
    (h : readFunctions n ts = .ok fs) : Program false ts fs ∧ ∀ f ∈ fs, f.params.Nodup := by
  rcases readFunctions_eq_ok.1 h with ⟨rfl, rfl⟩ | ⟨f, r, hf, others, hothers, rfl⟩
  · exact ⟨.nil, nofun⟩
  · have hlt := hf.lt
    obtain ⟨⟨ts₀, rfl, hdefinition⟩, hnodup⟩ := begins_readFunction hf
    obtain ⟨hprogram, hall⟩ := program_of_readFunctions r hothers
    exact ⟨.cons hdefinition hprogram, List.forall_mem_cons.2 ⟨hnodup, hall⟩⟩
termination_by ts.length

end Interpose.Source
