import Interpose.Source.Scan
import Interpose.Source.Tree

/-!
# From tokens to trees

A program is read from left to right with one token of look-ahead, two for an assignment:

```text
program    := function*
function   := "fn" name "(" [ name { "," name } ] ")" block
block      := "{" statement* "}"
statement  := "if" expr block [ "else" ( block | if-statement ) ]
            | "while" expr block
            | "return" [ expr ] [ ";" ]
            | name "=" expr [ ";" ]
            | expr [ ";" ]
expr       := comparison [ "?" expr ":" expr ]
comparison := sum [ ("<" | "<=" | ">" | ">=" | "==" | "!=") sum ]
sum        := product { ("+" | "-") product }
product    := unary { ("*" | "/" | "%") unary }
unary      := ("-" | "!") unary | postfix
postfix    := primary { "(" [ expr { "," expr } ] ")" }
primary    := literal | name | "(" expr ")"
```

Each reader returns the tokens it leaves, with the proof that they are fewer. That is what makes the
mutual recursion end, and a reader that recurses before it has taken a token only goes to a reader
of a tighter level.
-/

set_option autoImplicit false

namespace Interpose.Source

/-- What a reader returns on `ts`: a value and the tokens after it, which are fewer. -/
abbrev Reads (ts : List Token) (α : Type) :=
  Except SourceError (α × { rest : List Token // rest.length < ts.length })

/-- What the rest of a construct returns on `ts`: it may take nothing. -/
abbrev Continues (ts : List Token) (α : Type) :=
  Except SourceError (α × { rest : List Token // rest.length ≤ ts.length })

/-- The operator that a symbol stands for between two operands. -/
def Symbol.operator (s : Symbol) : String := s.spelling

section Reading

/- The line of the last token of the text, or one for a text without any. -/
variable (lastLine : Nat)

/-- The line of the next token. -/
def lineOf : List Token → Nat
  | [] => lastLine
  | t :: _ => t.line

/-- The error that something else stands here. -/
def unexpectedAt (expected : Expected) (ts : List Token) : SourceError :=
  .unexpected (lineOf lastLine ts) expected (ts.head?.map Token.lexeme)

/-- The tokens after a symbol that must stand here. -/
def readSymbol (s : Symbol) (expected : Expected) (ts : List Token) : Reads ts Unit :=
  match ts with
  | t :: rest =>
    if t.isSymbol s then .ok ((), ⟨rest, by simp⟩)
    else .error (unexpectedAt lastLine expected (t :: rest))
  | [] => .error (unexpectedAt lastLine expected [])

/-- The tokens after a reserved word that must stand here. -/
def readKeyword (k : Keyword) (expected : Expected) (ts : List Token) : Reads ts Unit :=
  match ts with
  | t :: rest =>
    if t.isKeyword k then .ok ((), ⟨rest, by simp⟩)
    else .error (unexpectedAt lastLine expected (t :: rest))
  | [] => .error (unexpectedAt lastLine expected [])

/-- The tokens after a symbol that may stand here. -/
def skipSymbol (s : Symbol) (ts : List Token) : { rest : List Token // rest.length ≤ ts.length } :=
  match ts with
  | t :: rest => if t.isSymbol s then ⟨rest, by simp⟩ else ⟨t :: rest, Nat.le_refl _⟩
  | [] => ⟨[], Nat.le_refl _⟩

/-- A name that must stand here. -/
def readName (expected : Expected) (ts : List Token) : Reads ts String :=
  match ts with
  | ⟨.ident name, _⟩ :: rest => .ok (name, ⟨rest, by simp⟩)
  | ts => .error (unexpectedAt lastLine expected ts)

/-- The symbol at the front, if it is one of a class. -/
def frontSymbol? (accepts : Symbol → Bool) : List Token → Option Symbol
  | ⟨.symbol s, _⟩ :: _ => if accepts s then some s else none
  | _ => none

/-- A symbol at the front is followed by fewer tokens. -/
theorem length_tail_lt_of_frontSymbol? {accepts : Symbol → Bool} {ts : List Token} {s : Symbol}
    (h : frontSymbol? accepts ts = some s) : ts.tail.length < ts.length := by
  cases ts with
  | nil => simp [frontSymbol?] at h
  | cons t ts => simp

/-! ## Expressions -/

mutual

/-- An expression: a comparison, or a choice between two expressions. -/
def readExpr (ts : List Token) : Reads ts Expr :=
  match readComparison ts with
  | .error e => .error e
  | .ok (cond, ⟨r, hr⟩) =>
    match h : frontSymbol? (· == .question) r with
    | none => .ok (cond, ⟨r, hr⟩)
    | some _ =>
      have hq := length_tail_lt_of_frontSymbol? h
      match readExpr r.tail with
      | .error e => .error e
      | .ok (onTrue, ⟨r₁, h₁⟩) =>
        match readSymbol lastLine .colon (.symbol .colon) r₁ with
        | .error e => .error e
        | .ok (_, ⟨r₂, h₂⟩) =>
          match readExpr r₂ with
          | .error e => .error e
          | .ok (onFalse, ⟨r₃, h₃⟩) => .ok (.choose cond onTrue onFalse, ⟨r₃, by omega⟩)
termination_by (ts.length, 5)

/-- A sum, or one comparison of two sums. -/
def readComparison (ts : List Token) : Reads ts Expr :=
  match readSum ts with
  | .error e => .error e
  | .ok (lhs, ⟨r, hr⟩) =>
    match h : frontSymbol? Symbol.isComparison r with
    | none => .ok (lhs, ⟨r, hr⟩)
    | some s =>
      have hs := length_tail_lt_of_frontSymbol? h
      match readSum r.tail with
      | .error e => .error e
      | .ok (rhs, ⟨r₁, h₁⟩) => .ok (.operator s.operator [lhs, rhs], ⟨r₁, by omega⟩)
termination_by (ts.length, 4)

/-- A sum of products. -/
def readSum (ts : List Token) : Reads ts Expr :=
  match readProduct ts with
  | .error e => .error e
  | .ok (first, ⟨r, hr⟩) =>
    match continueSum first r with
    | .error e => .error e
    | .ok (e, ⟨r₁, h₁⟩) => .ok (e, ⟨r₁, by omega⟩)
termination_by (ts.length, 3)

/-- The summands after the first, collected to the left. -/
def continueSum (lhs : Expr) (ts : List Token) : Continues ts Expr :=
  match h : frontSymbol? Symbol.isAdditive ts with
  | none => .ok (lhs, ⟨ts, Nat.le_refl _⟩)
  | some s =>
    have hs := length_tail_lt_of_frontSymbol? h
    match readProduct ts.tail with
    | .error e => .error e
    | .ok (rhs, ⟨r, hr⟩) =>
      match continueSum (.operator s.operator [lhs, rhs]) r with
      | .error e => .error e
      | .ok (e, ⟨r₁, h₁⟩) => .ok (e, ⟨r₁, by omega⟩)
termination_by (ts.length, 0)

/-- A product of factors. -/
def readProduct (ts : List Token) : Reads ts Expr :=
  match readUnary ts with
  | .error e => .error e
  | .ok (first, ⟨r, hr⟩) =>
    match continueProduct first r with
    | .error e => .error e
    | .ok (e, ⟨r₁, h₁⟩) => .ok (e, ⟨r₁, by omega⟩)
termination_by (ts.length, 2)

/-- The factors after the first, collected to the left. -/
def continueProduct (lhs : Expr) (ts : List Token) : Continues ts Expr :=
  match h : frontSymbol? Symbol.isMultiplicative ts with
  | none => .ok (lhs, ⟨ts, Nat.le_refl _⟩)
  | some s =>
    have hs := length_tail_lt_of_frontSymbol? h
    match readUnary ts.tail with
    | .error e => .error e
    | .ok (rhs, ⟨r, hr⟩) =>
      match continueProduct (.operator s.operator [lhs, rhs]) r with
      | .error e => .error e
      | .ok (e, ⟨r₁, h₁⟩) => .ok (e, ⟨r₁, by omega⟩)
termination_by (ts.length, 0)

/-- A factor: a sign or a negation before a factor, or a call. -/
def readUnary (ts : List Token) : Reads ts Expr :=
  match h : frontSymbol? (fun s => s == .minus || s == .bang) ts with
  | some s =>
    have hs := length_tail_lt_of_frontSymbol? h
    match readUnary ts.tail with
    | .error e => .error e
    | .ok (operand, ⟨r, hr⟩) =>
      .ok (.operator (if s == .minus then "neg" else "!") [operand], ⟨r, by omega⟩)
  | none =>
    match readPrimary ts with
    | .error e => .error e
    | .ok (callee, ⟨r, hr⟩) =>
      match continueCalls callee r with
      | .error e => .error e
      | .ok (e, ⟨r₁, h₁⟩) => .ok (e, ⟨r₁, by omega⟩)
termination_by (ts.length, 1)

/-- The argument lists after a callee, collected to the left. -/
def continueCalls (callee : Expr) (ts : List Token) : Continues ts Expr :=
  match h : frontSymbol? (· == .lParen) ts with
  | none => .ok (callee, ⟨ts, Nat.le_refl _⟩)
  | some _ =>
    have hs := length_tail_lt_of_frontSymbol? h
    match h' : frontSymbol? (· == .rParen) ts.tail with
    | some _ =>
      have hs' := length_tail_lt_of_frontSymbol? h'
      match continueCalls (.call callee []) ts.tail.tail with
      | .error e => .error e
      | .ok (e, ⟨r₁, h₁⟩) => .ok (e, ⟨r₁, by omega⟩)
    | none =>
      match readArgs ts.tail with
      | .error e => .error e
      | .ok (args, ⟨r, hr⟩) =>
        match continueCalls (.call callee args) r with
        | .error e => .error e
        | .ok (e, ⟨r₁, h₁⟩) => .ok (e, ⟨r₁, by omega⟩)
termination_by (ts.length, 0)

/-- At least one argument, up to and with the closing parenthesis. -/
def readArgs (ts : List Token) : Reads ts (List Expr) :=
  match readExpr ts with
  | .error e => .error e
  | .ok (arg, ⟨r, hr⟩) =>
    match h : frontSymbol? (· == .rParen) r with
    | some _ =>
      have hs := length_tail_lt_of_frontSymbol? h
      .ok ([arg], ⟨r.tail, by omega⟩)
    | none =>
      match readSymbol lastLine .comma .commaOrClose r with
      | .error e => .error e
      | .ok (_, ⟨r₁, h₁⟩) =>
        match readArgs r₁ with
        | .error e => .error e
        | .ok (args, ⟨r₂, h₂⟩) => .ok (arg :: args, ⟨r₂, by omega⟩)
termination_by (ts.length, 6)

/-- A literal, a name, or an expression in parentheses. -/
def readPrimary (ts : List Token) : Reads ts Expr :=
  match ts with
  | ⟨.int n, _⟩ :: r => .ok (.lit (.int n), ⟨r, by simp⟩)
  | ⟨.float x, _⟩ :: r => .ok (.lit (.float x), ⟨r, by simp⟩)
  | ⟨.keyword .trueWord, _⟩ :: r => .ok (.lit (.bool true), ⟨r, by simp⟩)
  | ⟨.keyword .falseWord, _⟩ :: r => .ok (.lit (.bool false), ⟨r, by simp⟩)
  | ⟨.keyword .nothingWord, _⟩ :: r => .ok (.lit .nothing, ⟨r, by simp⟩)
  | ⟨.ident name, _⟩ :: r => .ok (.name name, ⟨r, by simp⟩)
  | ⟨.symbol .lParen, _⟩ :: r =>
    match readExpr r with
    | .error e => .error e
    | .ok (e, ⟨r₁, h₁⟩) =>
      match readSymbol lastLine .rParen (.symbol .rParen) r₁ with
      | .error e => .error e
      | .ok (_, ⟨r₂, h₂⟩) => .ok (e, ⟨r₂, by simp only [List.length_cons]; omega⟩)
  | ts => .error (unexpectedAt lastLine .expression ts)
termination_by (ts.length, 0)

end

/-! ## Statements -/

/-- The value after the word that gives it back: none before the end of a statement or block. -/
def readGiven (ts : List Token) : Continues ts Expr :=
  match ts with
  | [] | ⟨.symbol .semi, _⟩ :: _ | ⟨.symbol .rBrace, _⟩ :: _ =>
    .ok (.lit .nothing, ⟨_, Nat.le_refl _⟩)
  | ts =>
    match readExpr lastLine ts with
    | .error e => .error e
    | .ok (e, ⟨r, hr⟩) => .ok (e, ⟨r, Nat.le_of_lt hr⟩)

/-- An expression and the semicolon that may end its statement. -/
def readEnded (ts : List Token) : Reads ts Expr :=
  match readExpr lastLine ts with
  | .error e => .error e
  | .ok (e, ⟨r, hr⟩) =>
    let ⟨r₁, h₁⟩ := skipSymbol .semi r
    .ok (e, ⟨r₁, by omega⟩)

/-- The name that is assigned to, if an assignment starts here. -/
def assigned? : List Token → Option String
  | ⟨.ident name, _⟩ :: ⟨.symbol .assign, _⟩ :: _ => some name
  | _ => none

/-- An assignment starts with two tokens. -/
theorem length_drop_two_lt_of_assigned? {ts : List Token} {name : String}
    (h : assigned? ts = some name) : (ts.drop 2).length < ts.length := by
  match ts with
  | [] => simp [assigned?] at h
  | [_] => simp [assigned?] at h
  | _ :: _ :: _ => simp only [List.drop_succ_cons, List.drop_zero, List.length_cons]; omega

mutual

/-- The statements between braces. -/
def readBlock (ts : List Token) : Reads ts (List Stmt) :=
  match readSymbol lastLine .lBrace (.symbol .lBrace) ts with
  | .error e => .error e
  | .ok (_, ⟨r, hr⟩) =>
    match readStmts r with
    | .error e => .error e
    | .ok (body, ⟨r₁, h₁⟩) => .ok (body, ⟨r₁, by omega⟩)
termination_by (ts.length, 0)

/-- Statements up to and with the closing brace. -/
def readStmts (ts : List Token) : Reads ts (List Stmt) :=
  match h : frontSymbol? (· == .rBrace) ts with
  | some _ =>
    have hs := length_tail_lt_of_frontSymbol? h
    .ok ([], ⟨ts.tail, hs⟩)
  | none =>
    match ts with
    | [] => .error (unexpectedAt lastLine (.symbol .rBrace) [])
    | t :: ts =>
      match readStmt (t :: ts) with
      | .error e => .error e
      | .ok (st, ⟨r, hr⟩) =>
        match readStmts r with
        | .error e => .error e
        | .ok (rest, ⟨r₁, h₁⟩) => .ok (st :: rest, ⟨r₁, by omega⟩)
termination_by (ts.length, 2)

/-- One statement. -/
def readStmt (ts : List Token) : Reads ts Stmt :=
  let line := lineOf lastLine ts
  match ts with
  | ⟨.keyword .ifWord, l⟩ :: r => readIf line (⟨.keyword .ifWord, l⟩ :: r)
  | ⟨.keyword .whileWord, _⟩ :: r =>
    match readExpr lastLine r with
    | .error e => .error e
    | .ok (cond, ⟨r₁, h₁⟩) =>
      match readBlock r₁ with
      | .error e => .error e
      | .ok (body, ⟨r₂, h₂⟩) =>
        .ok (.whileLoop line cond body, ⟨r₂, by simp only [List.length_cons]; omega⟩)
  | ⟨.keyword .returnWord, _⟩ :: r =>
    match readGiven lastLine r with
    | .error e => .error e
    | .ok (e, ⟨r₁, h₁⟩) =>
      let ⟨r₂, h₂⟩ := skipSymbol .semi r₁
      .ok (.giveBack line e, ⟨r₂, by simp only [List.length_cons]; omega⟩)
  | ts =>
    match h : assigned? ts with
    | some name =>
      have hs := length_drop_two_lt_of_assigned? h
      match readEnded lastLine (ts.drop 2) with
      | .error e => .error e
      | .ok (e, ⟨r, hr⟩) => .ok (.assign line name e, ⟨r, by omega⟩)
    | none =>
      match readEnded lastLine ts with
      | .error e => .error e
      | .ok (e, ⟨r, hr⟩) => .ok (.expr line e, ⟨r, hr⟩)
termination_by (ts.length, 1)

/-- A conditional statement. An `else` before another conditional holds that one alone. -/
def readIf (line : Nat) (ts : List Token) : Reads ts Stmt :=
  match readKeyword lastLine .ifWord .ifWord ts with
  | .error e => .error e
  | .ok (_, ⟨r, hr⟩) =>
    match readExpr lastLine r with
    | .error e => .error e
    | .ok (cond, ⟨r₁, h₁⟩) =>
      match readBlock r₁ with
      | .error e => .error e
      | .ok (onTrue, ⟨r₂, h₂⟩) =>
        match r₂, h₂ with
        | ⟨.keyword .elseWord, _⟩ :: ⟨.keyword .ifWord, l⟩ :: r₃, h₂ =>
          have hlen : r₃.length + 2 < r₁.length := h₂
          match readIf l (⟨.keyword .ifWord, l⟩ :: r₃) with
          | .error e => .error e
          | .ok (st, ⟨r₄, h₄⟩) =>
            .ok (.ifElse line cond onTrue [st], ⟨r₄, by simp only [List.length_cons] at *; omega⟩)
        | ⟨.keyword .elseWord, _⟩ :: r₃, h₂ =>
          have hlen : r₃.length + 1 < r₁.length := h₂
          match readBlock r₃ with
          | .error e => .error e
          | .ok (onFalse, ⟨r₄, h₄⟩) =>
            .ok (.ifElse line cond onTrue onFalse,
              ⟨r₄, by simp only [List.length_cons] at *; omega⟩)
        | r₂, h₂ => .ok (.ifThen line cond onTrue, ⟨r₂, by omega⟩)
termination_by (ts.length, 0)

end

/-! ## Functions and programs -/

/-- At least one more parameter, up to and with the closing parenthesis. `seen` holds the parameters
before it, and a name that is among them is an error on the line of the function. -/
def readParams (line : Nat) (seen : List String) (ts : List Token) : Reads ts (List String) :=
  match readName lastLine .parameterName ts with
  | .error e => .error e
  | .ok (name, ⟨r, hr⟩) =>
    if seen.contains name then .error (.duplicateParameter line name)
    else
      match h : frontSymbol? (· == .rParen) r with
      | some _ =>
        have hs := length_tail_lt_of_frontSymbol? h
        .ok ([name], ⟨r.tail, by omega⟩)
      | none =>
        match readSymbol lastLine .comma .commaOrClose r with
        | .error e => .error e
        | .ok (_, ⟨r₁, h₁⟩) =>
          match readParams line (name :: seen) r₁ with
          | .error e => .error e
          | .ok (names, ⟨r₂, h₂⟩) => .ok (name :: names, ⟨r₂, by omega⟩)
termination_by ts.length

/-- One function. -/
def readFunction (ts : List Token) : Reads ts Function :=
  let line := lineOf lastLine ts
  match readKeyword lastLine .function .functionWord ts with
  | .error e => .error e
  | .ok (_, ⟨r, hr⟩) =>
    match readName lastLine .functionName r with
    | .error e => .error e
    | .ok (name, ⟨r₁, h₁⟩) =>
      match readSymbol lastLine .lParen (.symbol .lParen) r₁ with
      | .error e => .error e
      | .ok (_, ⟨r₂, h₂⟩) =>
        match h : frontSymbol? (· == .rParen) r₂ with
        | some _ =>
          have hs := length_tail_lt_of_frontSymbol? h
          match readBlock lastLine r₂.tail with
          | .error e => .error e
          | .ok (body, ⟨r₃, h₃⟩) => .ok (⟨name, [], body, line⟩, ⟨r₃, by omega⟩)
        | none =>
          match readParams lastLine line [] r₂ with
          | .error e => .error e
          | .ok (params, ⟨r₃, h₃⟩) =>
            match readBlock lastLine r₃ with
            | .error e => .error e
            | .ok (body, ⟨r₄, h₄⟩) => .ok (⟨name, params, body, line⟩, ⟨r₄, by omega⟩)

/-- Functions up to the end of the text. -/
def readFunctions (ts : List Token) : Except SourceError (List Function) :=
  match ts with
  | [] => .ok []
  | t :: ts =>
    match readFunction lastLine (t :: ts) with
    | .error e => .error e
    | .ok (f, ⟨r, hr⟩) =>
      have : r.length < ts.length + 1 := hr
      match readFunctions r with
      | .error e => .error e
      | .ok fs => .ok (f :: fs)
termination_by ts.length

end Reading

/-- The functions of a list of tokens. -/
def readTokens (ts : List Token) : Except SourceError (List Function) :=
  readFunctions ((ts.getLast?.map Token.line).getD 1) ts

/-- The functions of a program text. -/
def readProgram (text : String) : Except SourceError (List Function) := do
  readTokens (← scan text)

end Interpose.Source
