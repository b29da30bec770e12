import Interpose.Proofs.Source.Phrases

/-!
# What each reader parses

A reader returns a tree together with the tokens after it, and a proof that these are fewer. Here
the proof is left aside: a reader *parses* a tree and a rest. For each reader it is said once what
its parts must parse so that it parses a tree and a rest, and nothing that follows looks into a
reader again.

Errors do not matter here. A reader that fails parses nothing.
-/

set_option autoImplicit false

namespace Interpose.Source

/-- The reader returns this value and leaves this rest. -/
def Parses {α : Type} {P : List Token → Prop}
    (result : Except SourceError (α × { rest : List Token // P rest })) (a : α)
    (rest : List Token) : Prop :=
  ∃ h, result = .ok (a, ⟨rest, h⟩)

section Parses

variable {α : Type} {P : List Token → Prop}
  {result : Except SourceError (α × { rest : List Token // P rest })} {a a' : α}
  {rest rest' : List Token}

@[simp] theorem parses_ok {h : P rest} :
    Parses (.ok (a, ⟨rest, h⟩)) a' rest' ↔ a = a' ∧ rest = rest' := by
  simp only [Parses, Except.ok.injEq, Prod.mk.injEq, Subtype.mk.injEq]
  exact ⟨fun ⟨_, heq⟩ => heq, fun heq => ⟨heq.2 ▸ h, heq⟩⟩

@[simp] theorem parses_error {e : SourceError} : ¬Parses (P := P) (.error e) a rest := nofun

/-- A reader parses one thing at most. -/
theorem Parses.unique (h : Parses result a rest) (h' : Parses result a' rest') :
    a' = a ∧ rest' = rest := by
  obtain ⟨_, rfl⟩ := h
  obtain ⟨rfl, rfl⟩ := parses_ok.1 h'
  exact ⟨rfl, rfl⟩

/-- What a reader leaves is less than what it was given. -/
theorem Parses.lt {ts : List Token} {result : Reads ts α} (h : Parses result a rest) :
    rest.length < ts.length := h.1

theorem Parses.ne_nil {ts : List Token} {result : Reads ts α} (h : Parses result a rest) :
    ts ≠ [] := by
  rintro rfl
  exact Nat.not_lt_zero _ h.lt

/-- A reader that has failed parses nothing to go on with. -/
@[simp] theorem exists_parses_error {e : SourceError} {p : α → List Token → Prop} :
    (∃ a rest, Parses (P := P) (.error e) a rest ∧ p a rest) ↔ False :=
  ⟨fun ⟨_, _, h, _⟩ => parses_error h, False.elim⟩

/-- A reader that has returned parses what it has returned. -/
theorem exists_parses_ok {h : P rest} {p : α → List Token → Prop} :
    (∃ a' rest', Parses (.ok (a, ⟨rest, h⟩)) a' rest' ∧ p a' rest') ↔ p a rest := by
  simp only [parses_ok]
  exact ⟨fun ⟨_, _, ⟨ha, hrest⟩, hp⟩ => ha ▸ hrest ▸ hp, fun hp => ⟨a, rest, ⟨rfl, rfl⟩, hp⟩⟩

end Parses

variable {n : Nat} {ts r : List Token}

/-! ## Single tokens -/

theorem frontSymbol?_eq_some {accepts : Symbol → Bool} {s : Symbol} :
    frontSymbol? accepts ts = some s ↔ accepts s = true ∧ ∃ l r, ts = ⟨.symbol s, l⟩ :: r := by
  unfold frontSymbol?
  split
  · next s' l r =>
    simp only [Option.ite_none_right_eq_some, Option.some.injEq, List.cons.injEq, Token.mk.injEq,
      Lexeme.symbol.injEq]
    constructor
    · rintro ⟨hs, rfl⟩
      exact ⟨hs, l, r, ⟨rfl, rfl⟩, rfl⟩
    · rintro ⟨hs, _, _, ⟨rfl, -⟩, -⟩
      exact ⟨hs, rfl⟩
  · next hts => exact ⟨nofun, fun ⟨_, l, r, heq⟩ => (hts s l r heq).elim⟩

/-- What is the case when the tokens do not start with one of certain symbols, and when they do. -/
def AtFront (accepts : Symbol → Bool) (ts : List Token) (p : Prop)
    (q : Symbol → List Token → Prop) : Prop :=
  (frontSymbol? accepts ts = none ∧ p) ∨ ∃ s l r, ts = ⟨.symbol s, l⟩ :: r
    ∧ accepts s = true ∧ q s r

section AtFront

variable {accepts : Symbol → Bool} {p : Prop} {q : Symbol → List Token → Prop} {s : Symbol}

theorem atFront_of_none (h : frontSymbol? accepts ts = none) : AtFront accepts ts p q ↔ p := by
  refine ⟨?_, fun hp => .inl ⟨h, hp⟩⟩
  rintro (⟨-, hp⟩ | ⟨s, l, r, rfl, hs, -⟩)
  · exact hp
  · exact (Option.some_ne_none s ((if_pos hs).symm.trans h)).elim

theorem atFront_of_some (h : frontSymbol? accepts ts = some s) :
    AtFront accepts ts p q ↔ q s ts.tail := by
  obtain ⟨hs, l, r, rfl⟩ := frontSymbol?_eq_some.1 h
  refine ⟨?_, fun hq => .inr ⟨s, l, r, rfl, hs, hq⟩⟩
  rintro (⟨hnone, -⟩ | ⟨s', l', r', heq, -, hq⟩)
  · exact (Option.some_ne_none s (h.symm.trans hnone)).elim
  · obtain ⟨⟨rfl, rfl⟩, rfl⟩ : (s = s' ∧ l = l') ∧ r = r' := by simpa using heq
    exact hq

end AtFront

theorem isSymbol_iff {t : Token} {s : Symbol} : t.isSymbol s = true ↔ t.lexeme = .symbol s := by
  unfold Token.isSymbol
  split
  · next s' heq => rw [heq, Lexeme.symbol.injEq, beq_iff_eq]
  · next hne => exact ⟨nofun, fun heq => (hne s heq).elim⟩

theorem isKeyword_iff {t : Token} {k : Keyword} : t.isKeyword k = true ↔ t.lexeme = .keyword k := by
  unfold Token.isKeyword
  split
  · next k' heq => rw [heq, Lexeme.keyword.injEq, beq_iff_eq]
  · next hne => exact ⟨nofun, fun heq => (hne k heq).elim⟩

theorem parses_readSymbol {s : Symbol} {x : Expected} {u : Unit} :
    Parses (readSymbol n s x ts) u r ↔ ∃ l, ts = ⟨.symbol s, l⟩ :: r := by
  unfold readSymbol
  split
  · next t ts =>
    split
    · next ht =>
      obtain ⟨lexeme, l⟩ := t
      obtain rfl := isSymbol_iff.1 ht
      simp
    · next ht =>
      refine ⟨fun h => (parses_error h).elim, ?_⟩
      rintro ⟨l, heq⟩
      exact (ht (isSymbol_iff.2 (congrArg Token.lexeme (List.cons.inj heq).1))).elim
  · simp

theorem parses_readKeyword {k : Keyword} {x : Expected} {u : Unit} :
    Parses (readKeyword n k x ts) u r ↔ ∃ l, ts = ⟨.keyword k, l⟩ :: r := by
  unfold readKeyword
  split
  · next t ts =>
    split
    · next ht =>
      obtain ⟨lexeme, l⟩ := t
      obtain rfl := isKeyword_iff.1 ht
      simp
    · next ht =>
      refine ⟨fun h => (parses_error h).elim, ?_⟩
      rintro ⟨l, heq⟩
      exact (ht (isKeyword_iff.2 (congrArg Token.lexeme (List.cons.inj heq).1))).elim
  · simp

theorem parses_readName {x : Expected} {name : String} :
    Parses (readName n x ts) name r ↔ ∃ l, ts = ⟨.ident name, l⟩ :: r := by
  unfold readName
  split
  · next name' l r' =>
    rw [parses_ok]
    simp [eq_comm]
  · next hne => exact ⟨fun h => (parses_error h).elim, fun ⟨l, heq⟩ => (hne _ _ _ heq).elim⟩

/-! ## Expressions -/

section Expressions

variable {e : Expr}

theorem parses_readExpr : Parses (readExpr n ts) e r ↔
    ∃ c r₀, Parses (readComparison n ts) c r₀
      ∧ AtFront (· == .question) r₀ (c = e ∧ r₀ = r) fun _ r₁ =>
      ∃ a r₂, Parses (readExpr n r₁) a r₂
        ∧ ∃ u r₃, Parses (readSymbol n .colon (.symbol .colon) r₂) u r₃ ∧
          ∃ b r₄, Parses (readExpr n r₃) b r₄ ∧ .choose c a b = e ∧ r₄ = r := by
  rw [readExpr]
  -- each reader called fails, and then both sides are false, or has a value, and then both go on
  -- from its rest
  rcases readComparison n ts with err | ⟨c, r₀, h₀⟩
  · simp
  rw [exists_parses_ok]
  dsimp only
  split
  · next hfront => rw [atFront_of_none hfront, parses_ok]
  next hfront =>
  rw [atFront_of_some hfront]
  rcases readExpr n r₀.tail with err | ⟨a, r₂, h₂⟩
  · simp
  rw [exists_parses_ok]
  dsimp only
  rcases readSymbol n .colon (.symbol .colon) r₂ with err | ⟨u, r₃, h₃⟩
  · simp
  rw [exists_parses_ok]
  dsimp only
  rcases readExpr n r₃ with err | ⟨b, r₄, h₄⟩
  · simp
  rw [exists_parses_ok]
  exact parses_ok

theorem parses_readComparison : Parses (readComparison n ts) e r ↔
    ∃ a r₀, Parses (readSum n ts) a r₀ ∧ AtFront Symbol.isComparison r₀ (a = e ∧ r₀ = r) fun s r₁ =>
      ∃ b r₂, Parses (readSum n r₁) b r₂ ∧ .operator s.operator [a, b] = e ∧ r₂ = r := by
  rw [readComparison]
  rcases readSum n ts with err | ⟨a, r₀, h₀⟩
  · simp
  rw [exists_parses_ok]
  dsimp only
  split
  · next hfront => rw [atFront_of_none hfront, parses_ok]
  next hfront =>
  rw [atFront_of_some hfront]
  rcases readSum n r₀.tail with err | ⟨b, r₂, h₂⟩
  · simp
  rw [exists_parses_ok]
  exact parses_ok

theorem parses_readSum : Parses (readSum n ts) e r ↔
    ∃ a r₀, Parses (readProduct n ts) a r₀ ∧ Parses (continueSum n a r₀) e r := by
  rw [readSum]
  rcases readProduct n ts with err | ⟨a, r₀, h₀⟩
  · simp
  rw [exists_parses_ok]
  dsimp only
  rcases continueSum n a r₀ with err | ⟨e', r₁, h₁⟩
  · simp
  exact parses_ok.trans parses_ok.symm

theorem parses_continueSum {lhs : Expr} : Parses (continueSum n lhs ts) e r ↔
    AtFront Symbol.isAdditive ts (lhs = e ∧ ts = r) fun s r₀ =>
      ∃ b r₁, Parses (readProduct n r₀) b r₁
        ∧ Parses (continueSum n (.operator s.operator [lhs, b]) r₁) e r := by
  rw [continueSum]
  split
  · next hfront => rw [atFront_of_none hfront, parses_ok]
  next s hfront =>
  rw [atFront_of_some hfront]
  dsimp only
  rcases readProduct n ts.tail with err | ⟨b, r₁, h₁⟩
  · simp
  rw [exists_parses_ok]
  dsimp only
  rcases continueSum n (.operator s.operator [lhs, b]) r₁ with err | ⟨e', r₂, h₂⟩
  · simp
  exact parses_ok.trans parses_ok.symm

theorem parses_readProduct : Parses (readProduct n ts) e r ↔
    ∃ a r₀, Parses (readUnary n ts) a r₀ ∧ Parses (continueProduct n a r₀) e r := by
  rw [readProduct]
  rcases readUnary n ts with err | ⟨a, r₀, h₀⟩
  · simp
  rw [exists_parses_ok]
  dsimp only
  rcases continueProduct n a r₀ with err | ⟨e', r₁, h₁⟩
  · simp
  exact parses_ok.trans parses_ok.symm

theorem parses_continueProduct {lhs : Expr} : Parses (continueProduct n lhs ts) e r ↔
    AtFront Symbol.isMultiplicative ts (lhs = e ∧ ts = r) fun s r₀ =>
      ∃ b r₁, Parses (readUnary n r₀) b r₁
        ∧ Parses (continueProduct n (.operator s.operator [lhs, b]) r₁) e r := by
  rw [continueProduct]
  split
  · next hfront => rw [atFront_of_none hfront, parses_ok]
  next s hfront =>
  rw [atFront_of_some hfront]
  dsimp only
  rcases readUnary n ts.tail with err | ⟨b, r₁, h₁⟩
  · simp
  rw [exists_parses_ok]
  dsimp only
  rcases continueProduct n (.operator s.operator [lhs, b]) r₁ with err | ⟨e', r₂, h₂⟩
  · simp
  exact parses_ok.trans parses_ok.symm

theorem parses_readUnary : Parses (readUnary n ts) e r ↔
    AtFront (fun s => s == .minus || s == .bang) ts
      (∃ f r₀, Parses (readPrimary n ts) f r₀ ∧ Parses (continueCalls n f r₀) e r)
      fun s r₀ => ∃ a r₁, Parses (readUnary n r₀) a r₁ ∧
        .operator (if s == .minus then "neg" else "!") [a] = e ∧ r₁ = r := by
  rw [readUnary]
  split
  · next s hfront =>
    rw [atFront_of_some hfront]
    dsimp only
    rcases readUnary n ts.tail with err | ⟨a, r₁, h₁⟩
    · simp
    rw [exists_parses_ok]
    exact parses_ok
  · next hfront =>
    rw [atFront_of_none hfront]
    rcases readPrimary n ts with err | ⟨f, r₀, h₀⟩
    · simp
    rw [exists_parses_ok]
    dsimp only
    rcases continueCalls n f r₀ with err | ⟨e', r₁, h₁⟩
    · simp
    exact parses_ok.trans parses_ok.symm

theorem parses_continueCalls {f : Expr} : Parses (continueCalls n f ts) e r ↔
    AtFront (· == .lParen) ts (f = e ∧ ts = r) fun _ r₀ => AtFront (· == .rParen) r₀
      (∃ args r₁, Parses (readArgs n r₀) args r₁ ∧ Parses (continueCalls n (.call f args) r₁) e r)
      fun _ r₁ => Parses (continueCalls n (.call f []) r₁) e r := by
  rw [continueCalls]
  split
  · next hfront => rw [atFront_of_none hfront, parses_ok]
  next hfront =>
  rw [atFront_of_some hfront]
  dsimp only
  split
  · next hclose =>
    rw [atFront_of_some hclose]
    rcases continueCalls n (.call f []) ts.tail.tail with err | ⟨e', r₂, h₂⟩
    · simp
    exact parses_ok.trans parses_ok.symm
  · next hclose =>
    rw [atFront_of_none hclose]
    rcases readArgs n ts.tail with err | ⟨args, r₁, h₁⟩
    · simp
    rw [exists_parses_ok]
    dsimp only
    rcases continueCalls n (.call f args) r₁ with err | ⟨e', r₂, h₂⟩
    · simp
    exact parses_ok.trans parses_ok.symm

theorem parses_readArgs {es : List Expr} : Parses (readArgs n ts) es r ↔
    ∃ e r₀, Parses (readExpr n ts) e r₀ ∧ AtFront (· == .rParen) r₀
      (∃ u r₁, Parses (readSymbol n .comma .commaOrClose r₀) u r₁ ∧
        ∃ args r₂, Parses (readArgs n r₁) args r₂ ∧ e :: args = es ∧ r₂ = r)
      fun _ r₁ => [e] = es ∧ r₁ = r := by
  rw [readArgs]
  rcases readExpr n ts with err | ⟨e, r₀, h₀⟩
  · simp
  rw [exists_parses_ok]
  dsimp only
  split
  · next hclose =>
    rw [atFront_of_some hclose]
    exact parses_ok
  · next hclose =>
    rw [atFront_of_none hclose]
    rcases readSymbol n .comma .commaOrClose r₀ with err | ⟨u, r₁, h₁⟩
    · simp
    rw [exists_parses_ok]
    dsimp only
    rcases readArgs n r₁ with err | ⟨args, r₂, h₂⟩
    · simp
    rw [exists_parses_ok]
    exact parses_ok

theorem parses_readPrimary {x : Lexeme} {l : Nat} : Parses (readPrimary n (⟨x, l⟩ :: ts)) e r ↔
    (x.atom? = some e ∧ ts = r) ∨ (x = .symbol .lParen ∧ ∃ e' r₁, Parses (readExpr n ts) e' r₁ ∧
      ∃ u r₂, Parses (readSymbol n .rParen (.symbol .rParen) r₁) u r₂ ∧ e' = e ∧ r₂ = r) := by
  cases x with
  | int i => simp [readPrimary, Lexeme.atom?]
  | float x => simp [readPrimary, Lexeme.atom?]
  | ident name => simp [readPrimary, Lexeme.atom?]
  | keyword k => cases k <;> simp [readPrimary, Lexeme.atom?]
  | symbol s =>
    by_cases hs : s = .lParen
    · subst hs
      simp only [Lexeme.atom?, reduceCtorEq, false_and, false_or, true_and]
      rw [readPrimary]
      rcases readExpr n ts with err | ⟨e', r₁, h₁⟩
      · simp
      rw [exists_parses_ok]
      dsimp only
      rcases readSymbol n .rParen (.symbol .rParen) r₁ with err | ⟨u, r₂, h₂⟩
      · simp
      rw [exists_parses_ok]
      exact parses_ok
    · cases s <;> simp_all [readPrimary, Lexeme.atom?]

/-- What an expression may start with. -/
def Lexeme.opensExpr : Lexeme → Bool
  | .symbol s => s == .lParen || s == .minus || s == .bang
  | .keyword k => k == .trueWord || k == .falseWord || k == .nothingWord
  | _ => true

/-- An expression starts with one of the tokens that may start one. -/
theorem Parses.opens (h : Parses (readExpr n ts) e r) :
    ∃ t ts', ts = t :: ts' ∧ t.lexeme.opensExpr = true := by
  obtain ⟨_, _, h, -⟩ := parses_readExpr.1 h
  obtain ⟨_, _, h, -⟩ := parses_readComparison.1 h
  obtain ⟨_, _, h, -⟩ := parses_readSum.1 h
  obtain ⟨_, _, h, -⟩ := parses_readProduct.1 h
  rcases parses_readUnary.1 h with ⟨-, f, _, h, -⟩ | ⟨s, l, ts', rfl, hs, -⟩
  · obtain ⟨⟨x, l⟩, ts, rfl⟩ := List.exists_cons_of_ne_nil h.ne_nil
    refine ⟨_, _, rfl, ?_⟩
    rcases parses_readPrimary.1 h with ⟨hatom, -⟩ | ⟨rfl, -⟩
    · cases x with
      | symbol s => cases hatom
      | keyword k => cases k <;> first | rfl | cases hatom
      | _ => rfl
    · rfl
  · exact ⟨_, _, rfl, by cases s <;> first | rfl | cases hs⟩

end Expressions

/-! ## Statements -/

section Statements

variable {e : Expr} {st : Stmt} {body : List Stmt}

/-- The end of what is between braces, or of a statement in it. -/
inductive AtEnd : List Token → Prop
  | nil : AtEnd []
  | semi {l : Nat} {ts : List Token} : AtEnd (⟨.symbol .semi, l⟩ :: ts)
  | rBrace {l : Nat} {ts : List Token} : AtEnd (⟨.symbol .rBrace, l⟩ :: ts)

/-- No expression starts at the end of a statement. -/
theorem AtEnd.not_parses (h : AtEnd ts) : ¬Parses (readExpr n ts) e r := by
  intro hparses
  obtain ⟨t, ts', rfl, hopens⟩ := hparses.opens
  cases h <;> cases hopens

theorem parses_readGiven : Parses (readGiven n ts) e r ↔
    Parses (readExpr n ts) e r ∨ (AtEnd ts ∧ .lit .nothing = e ∧ ts = r) := by
  have hend : AtEnd ts → ((Parses (readExpr n ts) e r ∨ (AtEnd ts ∧ .lit .nothing = e ∧ ts = r))
      ↔ .lit .nothing = e ∧ ts = r) := by
    intro hend
    simp only [hend, hend.not_parses, true_and, false_or]
  unfold readGiven
  split
  · rw [hend .nil, parses_ok]
  · rw [hend .semi, parses_ok]
  · rw [hend .rBrace, parses_ok]
  · next hnil hsemi hbrace =>
    have hnot : ¬AtEnd ts := by
      rintro (_ | _ | _)
      · exact hnil rfl
      · exact hsemi _ _ rfl
      · exact hbrace _ _ rfl
    rcases readExpr n ts with err | ⟨e', r₀, h₀⟩
    · simp [hnot]
    · simp [hnot]

theorem parses_readEnded : Parses (readEnded n ts) e r ↔
    ∃ e' r₀, Parses (readExpr n ts) e' r₀ ∧ e' = e ∧ (skipSymbol .semi r₀).1 = r := by
  unfold readEnded
  rcases readExpr n ts with err | ⟨e', r₀, h₀⟩
  · simp
  rw [exists_parses_ok]
  exact parses_ok

theorem parses_readBlock : Parses (readBlock n ts) body r ↔
    ∃ u r₀, Parses (readSymbol n .lBrace (.symbol .lBrace) ts) u r₀
      ∧ Parses (readStmts n r₀) body r := by
  rw [readBlock]
  rcases readSymbol n .lBrace (.symbol .lBrace) ts with err | ⟨u, r₀, h₀⟩
  · simp
  rw [exists_parses_ok]
  dsimp only
  rcases readStmts n r₀ with err | ⟨body', r₁, h₁⟩
  · simp
  exact parses_ok.trans parses_ok.symm

theorem parses_readIf {line : Nat} : Parses (readIf n line ts) st r ↔
    ∃ u r₀, Parses (readKeyword n .ifWord .ifWord ts) u r₀ ∧ ∃ c r₁, Parses (readExpr n r₀) c r₁ ∧
      ∃ a r₂, Parses (readBlock n r₁) a r₂ ∧
        ((∃ l l' r₃, r₂ = ⟨.keyword .elseWord, l⟩ :: ⟨.keyword .ifWord, l'⟩ :: r₃ ∧
            ∃ other r₄, Parses (readIf n l' (⟨.keyword .ifWord, l'⟩ :: r₃)) other r₄
              ∧ .ifElse line c a [other] = st ∧ r₄ = r)
          ∨ (∃ l r₃, r₂ = ⟨.keyword .elseWord, l⟩ :: r₃ ∧
            ∃ b r₄, Parses (readBlock n r₃) b r₄ ∧ .ifElse line c a b = st ∧ r₄ = r)
          ∨ ((∀ l r₃, r₂ ≠ ⟨.keyword .elseWord, l⟩ :: r₃) ∧ .ifThen line c a = st ∧ r₂ = r)) := by
  -- a block opens with a brace, so after `else` only one of the two readings can go on
  have hbrace : ∀ {l : Nat} {r₃ : List Token} {b : List Stmt} {r₄ : List Token},
      ¬Parses (readBlock n (⟨.keyword .ifWord, l⟩ :: r₃)) b r₄ := by
    intro l r₃ b r₄ h
    obtain ⟨u, r₀, h, -⟩ := parses_readBlock.1 h
    obtain ⟨l', heq⟩ := parses_readSymbol.1 h
    cases heq
  rw [readIf]
  rcases readKeyword n .ifWord .ifWord ts with err | ⟨u, r₀, h₀⟩
  · simp
  rw [exists_parses_ok]
  dsimp only
  rcases readExpr n r₀ with err | ⟨c, r₁, h₁⟩
  · simp
  rw [exists_parses_ok]
  dsimp only
  rcases readBlock n r₁ with err | ⟨a, r₂, h₂⟩
  · simp
  rw [exists_parses_ok]
  dsimp only
  split
  · next l l' r₃ h₃ =>
    refine Iff.trans (b := ∃ other r₄, Parses (readIf n l' (⟨.keyword .ifWord, l'⟩ :: r₃)) other r₄
      ∧ .ifElse line c a [other] = st ∧ r₄ = r) ?_ ⟨fun h => .inl ⟨l, l', r₃, rfl, h⟩, ?_⟩
    · rcases readIf n l' (⟨.keyword .ifWord, l'⟩ :: r₃) with err | ⟨other, r₄, h₄⟩
      · simp
      rw [exists_parses_ok]
      exact parses_ok
    · rintro (⟨_, _, _, heq, h⟩ | ⟨_, _, heq, _, _, h, -⟩ | ⟨hne, -⟩)
      · cases heq
        exact h
      · cases heq
        exact (hbrace h).elim
      · exact (hne _ _ rfl).elim
  · next l r₃ h₃ hif =>
    refine Iff.trans (b := ∃ b r₄, Parses (readBlock n r₃) b r₄ ∧ .ifElse line c a b = st
      ∧ r₄ = r) ?_
      ⟨fun h => .inr (.inl ⟨l, r₃, rfl, h⟩), ?_⟩
    · rcases readBlock n r₃ with err | ⟨b, r₄, h₄⟩
      · simp
      rw [exists_parses_ok]
      exact parses_ok
    · rintro (⟨_, _, _, heq, -⟩ | ⟨_, _, heq, h⟩ | ⟨hne, -⟩)
      · cases heq
        exact (hif _ _ h₃ rfl HEq.rfl).elim
      · cases heq
        exact h
      · exact (hne _ _ rfl).elim
  · next hif helse =>
    have hne : ∀ l r₃, r₂ ≠ ⟨.keyword .elseWord, l⟩ :: r₃ := by
      rintro l r₃ rfl
      exact helse l r₃ _ rfl HEq.rfl
    rw [parses_ok]
    refine ⟨fun h => .inr (.inr ⟨hne, h⟩), ?_⟩
    rintro (⟨_, _, _, rfl, -⟩ | ⟨_, _, rfl, -⟩ | ⟨-, h⟩)
    · exact (hne _ _ rfl).elim
    · exact (hne _ _ rfl).elim
    · exact h

/-! A statement is read by what it starts with. -/

theorem readStmt_if {l : Nat} :
    readStmt n (⟨.keyword .ifWord, l⟩ :: ts) = readIf n l (⟨.keyword .ifWord, l⟩ :: ts) := by
  rw [readStmt]
  rfl

theorem parses_readStmt_while {l : Nat} :
    Parses (readStmt n (⟨.keyword .whileWord, l⟩ :: ts)) st r ↔
    ∃ c r₀, Parses (readExpr n ts) c r₀ ∧ ∃ b r₁, Parses (readBlock n r₀) b r₁
      ∧ .whileLoop l c b = st ∧ r₁ = r := by
  rw [readStmt]
  rcases readExpr n ts with err | ⟨c, r₀, h₀⟩
  · simp
  rw [exists_parses_ok]
  dsimp only
  rcases readBlock n r₀ with err | ⟨b, r₁, h₁⟩
  · simp
  rw [exists_parses_ok]
  exact parses_ok

theorem parses_readStmt_return {l : Nat} :
    Parses (readStmt n (⟨.keyword .returnWord, l⟩ :: ts)) st r ↔
    ∃ e r₀, Parses (readGiven n ts) e r₀ ∧ .giveBack l e = st ∧ (skipSymbol .semi r₀).1 = r := by
  rw [readStmt]
  rcases readGiven n ts with err | ⟨e, r₀, h₀⟩
  · simp
  rw [exists_parses_ok]
  exact parses_ok

theorem assigned?_eq_some {name : String} :
    assigned? ts = some name ↔ ∃ l l' r, ts = ⟨.ident name, l⟩ :: ⟨.symbol .assign, l'⟩ :: r := by
  unfold assigned?
  split
  · next name' l l' r =>
    rw [Option.some.injEq]
    constructor
    · rintro rfl
      exact ⟨l, l', r, rfl⟩
    · rintro ⟨_, _, _, heq⟩
      exact Lexeme.ident.inj (congrArg Token.lexeme (List.cons.inj heq).1)
  · next hne => exact ⟨nofun, fun ⟨l, l', r, heq⟩ => (hne _ _ _ _ heq).elim⟩

/-- The words that say what the statement is. -/
def Lexeme.opensStmt : Lexeme → Bool
  | .keyword k => k == .ifWord || k == .whileWord || k == .returnWord
  | _ => false

theorem Lexeme.opensStmt_iff {x : Lexeme} : x.opensStmt = true
    ↔ x = .keyword .ifWord ∨ x = .keyword .whileWord ∨ x = .keyword .returnWord := by
  cases x with
  | keyword k => cases k <;> simp [opensStmt]
  | _ => simp [opensStmt]

/-- A statement that starts with none of those words is an assignment or an expression. -/
theorem parses_readStmt_plain {t : Token} (hplain : t.lexeme.opensStmt = false) :
    Parses (readStmt n (t :: ts)) st r ↔
    (∃ name, assigned? (t :: ts) = some name ∧ ∃ e r₀, Parses (readEnded n ((t :: ts).drop 2)) e r₀
      ∧ .assign t.line name e = st ∧ r₀ = r)
    ∨ (assigned? (t :: ts) = none ∧ ∃ e r₀, Parses (readEnded n (t :: ts)) e r₀
      ∧ .expr t.line e = st ∧ r₀ = r) := by
  rw [readStmt]
  · split
    · next name hname =>
      simp only [hname, Option.some.injEq, exists_eq_left', reduceCtorEq, false_and, or_false]
      rcases readEnded n ((t :: ts).drop 2) with err | ⟨e, r₀, h₀⟩
      · simp
      rw [exists_parses_ok]
      exact parses_ok
    · next hname =>
      simp only [hname, reduceCtorEq, false_and, exists_false, false_or, true_and]
      rcases readEnded n (t :: ts) with err | ⟨e, r₀, h₀⟩
      · simp
      rw [exists_parses_ok]
      exact parses_ok
  all_goals
    rintro l r heq
    obtain ⟨rfl, -⟩ := List.cons.inj heq
    cases hplain

/-- No statement starts with anything else. -/
theorem Parses.stmt_opens (h : Parses (readStmt n ts) st r) :
    ∃ t ts', ts = t :: ts' ∧ (t.lexeme.opensStmt = true ∨ t.lexeme.opensExpr = true) := by
  obtain ⟨t, ts, rfl⟩ := List.exists_cons_of_ne_nil h.ne_nil
  refine ⟨t, ts, rfl, ?_⟩
  rcases hplain : t.lexeme.opensStmt with _ | _
  · rcases (parses_readStmt_plain hplain).1 h with ⟨name, hname, -⟩ | ⟨-, _, _, h, -⟩
    · obtain ⟨l, l', r, heq⟩ := assigned?_eq_some.1 hname
      obtain ⟨rfl, -⟩ := List.cons.inj heq
      exact .inr rfl
    · obtain ⟨_, _, h, -⟩ := parses_readEnded.1 h
      obtain ⟨_, _, heq, hopens⟩ := h.opens
      obtain ⟨rfl, -⟩ := List.cons.inj heq
      exact .inr hopens
  · exact .inl rfl

theorem parses_readStmts : Parses (readStmts n ts) body r ↔
    AtFront (· == .rBrace) ts
      (∃ st r₀, Parses (readStmt n ts) st r₀ ∧
        ∃ rest r₁, Parses (readStmts n r₀) rest r₁ ∧ st :: rest = body ∧ r₁ = r)
      fun _ r₀ => [] = body ∧ r₀ = r := by
  rw [readStmts]
  split
  · next hclose =>
    rw [atFront_of_some hclose]
    exact parses_ok
  · next hclose =>
    rw [atFront_of_none hclose]
    rcases ts with _ | ⟨t, ts⟩
    · refine iff_of_false parses_error ?_
      rintro ⟨_, _, h, _⟩
      exact h.ne_nil rfl
    dsimp only
    rcases readStmt n (t :: ts) with err | ⟨st, r₀, h₀⟩
    · simp
    rw [exists_parses_ok]
    dsimp only
    rcases readStmts n r₀ with err | ⟨rest, r₁, h₁⟩
    · simp
    rw [exists_parses_ok]
    exact parses_ok

end Statements

/-! ## Functions -/

theorem parses_readParams {line : Nat} {seen names : List String} :
    Parses (readParams n line seen ts) names r ↔
    ∃ name r₀, Parses (readName n .parameterName ts) name r₀ ∧ name ∉ seen
      ∧ AtFront (· == .rParen) r₀
      (∃ u r₁, Parses (readSymbol n .comma .commaOrClose r₀) u r₁ ∧
        ∃ others r₂, Parses (readParams n line (name :: seen) r₁) others r₂
          ∧ name :: others = names ∧ r₂ = r)
      fun _ r₁ => [name] = names ∧ r₁ = r := by
  rw [readParams]
  rcases readName n .parameterName ts with err | ⟨name, r₀, h₀⟩
  · simp
  rw [exists_parses_ok]
  dsimp only
  split
  · next hseen => simp [List.contains_iff_mem.1 hseen]
  next hseen =>
  rw [and_iff_right fun hmem => hseen (List.contains_iff_mem.2 hmem)]
  split
  · next hclose =>
    rw [atFront_of_some hclose]
    exact parses_ok
  · next hclose =>
    rw [atFront_of_none hclose]
    rcases readSymbol n .comma .commaOrClose r₀ with err | ⟨u, r₁, h₁⟩
    · simp
    rw [exists_parses_ok]
    dsimp only
    rcases readParams n line (name :: seen) r₁ with err | ⟨others, r₂, h₂⟩
    · simp
    rw [exists_parses_ok]
    exact parses_ok

theorem parses_readFunction {f : Function} : Parses (readFunction n ts) f r ↔
    ∃ u r₀, Parses (readKeyword n .function .functionWord ts) u r₀ ∧
      ∃ name r₁, Parses (readName n .functionName r₀) name r₁ ∧
      ∃ u' r₂, Parses (readSymbol n .lParen (.symbol .lParen) r₁) u' r₂ ∧ AtFront (· == .rParen) r₂
        (∃ params r₃, Parses (readParams n (lineOf n ts) [] r₂) params r₃ ∧
          ∃ body r₄, Parses (readBlock n r₃) body r₄
            ∧ ⟨name, params, body, lineOf n ts⟩ = f ∧ r₄ = r)
        fun _ r₃ => ∃ body r₄, Parses (readBlock n r₃) body r₄ ∧ ⟨name, [], body, lineOf n ts⟩ = f
          ∧ r₄ = r := by
  rw [readFunction]
  dsimp only
  rcases readKeyword n .function .functionWord ts with err | ⟨u, r₀, h₀⟩
  · simp
  rw [exists_parses_ok]
  dsimp only
  rcases readName n .functionName r₀ with err | ⟨name, r₁, h₁⟩
  · simp
  rw [exists_parses_ok]
  dsimp only
  rcases readSymbol n .lParen (.symbol .lParen) r₁ with err | ⟨u', r₂, h₂⟩
  · simp
  rw [exists_parses_ok]
  dsimp only
  split
  · next hclose =>
    rw [atFront_of_some hclose]
    rcases readBlock n r₂.tail with err | ⟨body, r₄, h₄⟩
    · simp
    rw [exists_parses_ok]
    exact parses_ok
  · next hclose =>
    rw [atFront_of_none hclose]
    rcases readParams n (lineOf n ts) [] r₂ with err | ⟨params, r₃, h₃⟩
    · simp
    rw [exists_parses_ok]
    dsimp only
    rcases readBlock n r₃ with err | ⟨body, r₄, h₄⟩
    · simp
    rw [exists_parses_ok]
    exact parses_ok

theorem readFunctions_eq_ok {fs : List Function} : readFunctions n ts = .ok fs ↔
    (ts = [] ∧ [] = fs)
    ∨ ∃ f r, Parses (readFunction n ts) f r ∧ ∃ others, readFunctions n r = .ok others
      ∧ f :: others = fs := by
  rcases ts with _ | ⟨t, ts⟩
  · have hnot : ∀ {f r}, ¬Parses (readFunction n []) f r := fun h => h.ne_nil rfl
    simp [readFunctions, hnot]
  · rw [readFunctions]
    rcases readFunction n (t :: ts) with err | ⟨f, r, h⟩
    · simp
    rw [exists_parses_ok]
    dsimp only
    rcases readFunctions n r with err | others
    · simp
    · simp

end Interpose.Source
