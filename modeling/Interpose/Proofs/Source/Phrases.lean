import Interpose.Source.Grammar

/-!
# The grammar of programs

What a program is, said without a reader: which lists of tokens are a phrase of which kind, and what
their tree is. A list may be put together in more than one way. The relations below have one rule
for each way, and know nothing of an order in which tokens are looked at.

The kinds of expressions are *levels*, from the loosest to the tightest. A phrase of a level is one
of the next tighter level, or has an operator of its level. Sums and products have their last
operand on a tighter level than the one before it, and so they associate to the left. Both operands
of a comparison are sums, and so comparisons do not associate. The last part of a choice is any
expression, and so choices nest to the right. Operators are no part of the tree: they are calls of
the names in one table.

The semicolon after a statement may be left out. The relations have a parameter for lists in which
it is not.
-/

set_option autoImplicit false

namespace Interpose.Source

/-! ## Expressions -/

/-- The kinds of expressions, the loosest first. -/
inductive Level where
  | expr | comparison | sum | product | unary | calls | primary

/-- The name of the function that an operator of a level calls. -/
def Level.operator? : Level → Symbol → Option String
  | .comparison, .lt => some "<"
  | .comparison, .gt => some ">"
  | .comparison, .le => some "<="
  | .comparison, .ge => some ">="
  | .comparison, .eqEq => some "=="
  | .comparison, .ne => some "!="
  | .sum, .plus => some "+"
  | .sum, .minus => some "-"
  | .product, .star => some "*"
  | .product, .slash => some "/"
  | .product, .percent => some "%"
  | .unary, .minus => some "neg"
  | .unary, .bang => some "!"
  | _, _ => none

/-- The expression that a single token is: a literal, or a name. -/
def Lexeme.atom? : Lexeme → Option Expr
  | .int n => some (.lit (.int n))
  | .float x => some (.lit (.float x))
  | .keyword .trueWord => some (.lit (.bool true))
  | .keyword .falseWord => some (.lit (.bool false))
  | .keyword .nothingWord => some (.lit .nothing)
  | .ident name => some (.name name)
  | _ => none

mutual

/-- The tokens are an expression of the level, with this tree. -/
inductive Phrase : Level → List Token → Expr → Prop
  | comparison {ts : List Token} {e : Expr} : Phrase .comparison ts e → Phrase .expr ts e
  | choose {ts ts₁ ts₂ : List Token} {c a b : Expr} {l l' : Nat} :
    Phrase .comparison ts c → Phrase .expr ts₁ a → Phrase .expr ts₂ b →
    Phrase .expr (ts ++ ⟨.symbol .question, l⟩ :: ts₁ ++ ⟨.symbol .colon, l'⟩ :: ts₂)
      (.choose c a b)
  | sum {ts : List Token} {e : Expr} : Phrase .sum ts e → Phrase .comparison ts e
  | compare {ts ts₁ : List Token} {a b : Expr} {s : Symbol} {op : String} {l : Nat} :
    Level.comparison.operator? s = some op → Phrase .sum ts a → Phrase .sum ts₁ b →
    Phrase .comparison (ts ++ ⟨.symbol s, l⟩ :: ts₁) (.operator op [a, b])
  | product {ts : List Token} {e : Expr} : Phrase .product ts e → Phrase .sum ts e
  | add {ts ts₁ : List Token} {a b : Expr} {s : Symbol} {op : String} {l : Nat} :
    Level.sum.operator? s = some op → Phrase .sum ts a → Phrase .product ts₁ b →
    Phrase .sum (ts ++ ⟨.symbol s, l⟩ :: ts₁) (.operator op [a, b])
  | unary {ts : List Token} {e : Expr} : Phrase .unary ts e → Phrase .product ts e
  | multiply {ts ts₁ : List Token} {a b : Expr} {s : Symbol} {op : String} {l : Nat} :
    Level.product.operator? s = some op → Phrase .product ts a → Phrase .unary ts₁ b →
    Phrase .product (ts ++ ⟨.symbol s, l⟩ :: ts₁) (.operator op [a, b])
  | calls {ts : List Token} {e : Expr} : Phrase .calls ts e → Phrase .unary ts e
  | sign {ts : List Token} {a : Expr} {s : Symbol} {op : String} {l : Nat} :
    Level.unary.operator? s = some op → Phrase .unary ts a →
    Phrase .unary (⟨.symbol s, l⟩ :: ts) (.operator op [a])
  | primary {ts : List Token} {e : Expr} : Phrase .primary ts e → Phrase .calls ts e
  | call {ts ts₁ : List Token} {f : Expr} {args : List Expr} {l l' : Nat} :
    Phrase .calls ts f → Arguments ts₁ args →
    Phrase .calls (ts ++ ⟨.symbol .lParen, l⟩ :: ts₁ ++ [⟨.symbol .rParen, l'⟩]) (.call f args)
  | atom {x : Lexeme} {e : Expr} {l : Nat} : x.atom? = some e → Phrase .primary [⟨x, l⟩] e
  | parens {ts : List Token} {e : Expr} {l l' : Nat} : Phrase .expr ts e →
    Phrase .primary (⟨.symbol .lParen, l⟩ :: ts ++ [⟨.symbol .rParen, l'⟩]) e

/-- The tokens are the arguments of a call, with these trees. -/
inductive Arguments : List Token → List Expr → Prop
  | none : Arguments [] []
  | some {ts : List Token} {args : List Expr} : Listed ts args → Arguments ts args

/-- The tokens are one or more expressions with commas between them. -/
inductive Listed : List Token → List Expr → Prop
  | last {ts : List Token} {e : Expr} : Phrase .expr ts e → Listed ts [e]
  | more {ts ts₁ : List Token} {e : Expr} {es : List Expr} {l : Nat} :
    Phrase .expr ts e → Listed ts₁ es → Listed (ts ++ ⟨.symbol .comma, l⟩ :: ts₁) (e :: es)

end

/-! ## Statements -/

/-- The tokens are the end of a statement: a semicolon, which may be left out unless it is asked
for. -/
inductive Ending (strict : Bool) : List Token → Prop
  | semi {l : Nat} : Ending strict [⟨.symbol .semi, l⟩]
  | none : strict = false → Ending strict []

mutual

/-- The tokens are a statement. Its line is the line of its first token. -/
inductive Sentence (strict : Bool) : List Token → Stmt → Prop
  | assign {ts ends : List Token} {e : Expr} {name : String} {l l' : Nat} :
    Phrase .expr ts e → Ending strict ends →
    Sentence strict (⟨.ident name, l⟩ :: ⟨.symbol .assign, l'⟩ :: ts ++ ends) (.assign l name e)
  | conditional {ts : List Token} {st : Stmt} : Conditional strict ts st → Sentence strict ts st
  | whileLoop {ts ts₁ : List Token} {c : Expr} {body : List Stmt} {l : Nat} :
    Phrase .expr ts c → Braced strict ts₁ body →
    Sentence strict (⟨.keyword .whileWord, l⟩ :: ts ++ ts₁) (.whileLoop l c body)
  | giveBack {ts ends : List Token} {e : Expr} {l : Nat} : Phrase .expr ts e → Ending strict ends →
    Sentence strict (⟨.keyword .returnWord, l⟩ :: ts ++ ends) (.giveBack l e)
  | giveNothing {ends : List Token} {l : Nat} : Ending strict ends →
    Sentence strict (⟨.keyword .returnWord, l⟩ :: ends) (.giveBack l (.lit .nothing))
  | expr {t : Token} {ts ends : List Token} {e : Expr} :
    Phrase .expr (t :: ts) e → Ending strict ends →
    Sentence strict (t :: ts ++ ends) (.expr t.line e)

/-- The tokens are a conditional statement. -/
inductive Conditional (strict : Bool) : List Token → Stmt → Prop
  | ifThen {ts ts₁ : List Token} {c : Expr} {a : List Stmt} {l : Nat} :
    Phrase .expr ts c → Braced strict ts₁ a →
    Conditional strict (⟨.keyword .ifWord, l⟩ :: ts ++ ts₁) (.ifThen l c a)
  | ifElse {ts ts₁ ts₂ : List Token} {c : Expr} {a b : List Stmt} {l l' : Nat} :
    Phrase .expr ts c → Braced strict ts₁ a → Braced strict ts₂ b →
    Conditional strict (⟨.keyword .ifWord, l⟩ :: ts ++ ts₁ ++ ⟨.keyword .elseWord, l'⟩ :: ts₂)
      (.ifElse l c a b)
  | elseIf {ts ts₁ ts₂ : List Token} {c : Expr} {a : List Stmt} {st : Stmt} {l l' : Nat} :
    Phrase .expr ts c → Braced strict ts₁ a → Conditional strict ts₂ st →
    Conditional strict (⟨.keyword .ifWord, l⟩ :: ts ++ ts₁ ++ ⟨.keyword .elseWord, l'⟩ :: ts₂)
      (.ifElse l c a [st])

/-- The tokens are statements between braces. -/
inductive Braced (strict : Bool) : List Token → List Stmt → Prop
  | mk {ts : List Token} {body : List Stmt} {l l' : Nat} : Sentences strict ts body →
    Braced strict (⟨.symbol .lBrace, l⟩ :: ts ++ [⟨.symbol .rBrace, l'⟩]) body

/-- The tokens are statements, one after the other. -/
inductive Sentences (strict : Bool) : List Token → List Stmt → Prop
  | nil : Sentences strict [] []
  | cons {ts ts₁ : List Token} {st : Stmt} {rest : List Stmt} :
    Sentence strict ts st → Sentences strict ts₁ rest → Sentences strict (ts ++ ts₁) (st :: rest)

end

/-! ## Functions and programs -/

/-- The tokens are one or more names with commas between them. -/
inductive NameList : List Token → List String → Prop
  | last {name : String} {l : Nat} : NameList [⟨.ident name, l⟩] [name]
  | more {name : String} {ts : List Token} {names : List String} {l l' : Nat} :
    NameList ts names → NameList (⟨.ident name, l⟩ :: ⟨.symbol .comma, l'⟩ :: ts) (name :: names)

/-- The tokens are the parameters of a function. -/
inductive Parameters : List Token → List String → Prop
  | none : Parameters [] []
  | some {ts : List Token} {names : List String} : NameList ts names → Parameters ts names

/-- The tokens are a function. Its line is the line of its first token. -/
inductive Definition (strict : Bool) : List Token → Function → Prop
  | mk {ts ts₁ : List Token} {name : String} {params : List String} {body : List Stmt}
  {l l₁ l₂ l₃ : Nat} :
    Parameters ts params → Braced strict ts₁ body →
    Definition strict (⟨.keyword .function, l⟩ :: ⟨.ident name, l₁⟩ :: ⟨.symbol .lParen, l₂⟩ :: ts
      ++ ⟨.symbol .rParen, l₃⟩ :: ts₁) ⟨name, params, body, l⟩

/-- The tokens are a program. -/
inductive Program (strict : Bool) : List Token → List Function → Prop
  | nil : Program strict [] []
  | cons {ts ts₁ : List Token} {f : Function} {fs : List Function} :
    Definition strict ts f → Program strict ts₁ fs → Program strict (ts ++ ts₁) (f :: fs)

end Interpose.Source
