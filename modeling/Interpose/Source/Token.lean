import Interpose.Text.Quoted
import Interpose.Value.Basic

/-!
# Tokens of the source language

A token is a word, a number, a keyword or a symbol, together with the line on which it starts. The
binary operators of the language are symbols, and each names the global function it calls.
-/

set_option autoImplicit false

namespace Interpose.Source

/-- The reserved words. -/
inductive Keyword where
  | function | ifWord | elseWord | whileWord | returnWord | trueWord | falseWord | nothingWord
deriving Repr, DecidableEq

namespace Keyword

/-- The reserved word that is spelled like this. -/
def ofString? : String → Option Keyword
  | "fn" => some .function
  | "if" => some .ifWord
  | "else" => some .elseWord
  | "while" => some .whileWord
  | "return" => some .returnWord
  | "true" => some .trueWord
  | "false" => some .falseWord
  | "nothing" => some .nothingWord
  | _ => none

/-- The spelling. -/
def spelling : Keyword → String
  | .function => "fn"
  | .ifWord => "if"
  | .elseWord => "else"
  | .whileWord => "while"
  | .returnWord => "return"
  | .trueWord => "true"
  | .falseWord => "false"
  | .nothingWord => "nothing"

/-- The name in messages. -/
def describe : Keyword → String
  | .function => "Fn"
  | .ifWord => "If"
  | .elseWord => "Else"
  | .whileWord => "While"
  | .returnWord => "Return"
  | .trueWord => "True"
  | .falseWord => "False"
  | .nothingWord => "Nothing"

/-- Every reserved word is read back from its spelling. -/
@[simp] theorem ofString?_spelling (k : Keyword) : ofString? k.spelling = some k := by
  cases k <;> rfl

end Keyword

/-- Punctuation and operators. -/
inductive Symbol where
  | lParen | rParen | lBrace | rBrace | comma | semi | assign | question | colon
  | plus | minus | star | slash | percent | lt | le | gt | ge | eqEq | ne | bang
deriving Repr, DecidableEq

namespace Symbol

def spelling : Symbol → String
  | .lParen => "(" | .rParen => ")" | .lBrace => "\x7b" | .rBrace => "\x7d"
  | .comma => "," | .semi => ";" | .assign => "=" | .question => "?" | .colon => ":"
  | .plus => "+" | .minus => "-" | .star => "*" | .slash => "/" | .percent => "%"
  | .lt => "<" | .le => "<=" | .gt => ">" | .ge => ">=" | .eqEq => "==" | .ne => "!=" | .bang => "!"

/-- The name in messages. -/
def describe : Symbol → String
  | .lParen => "LParen" | .rParen => "RParen" | .lBrace => "LBrace" | .rBrace => "RBrace"
  | .comma => "Comma" | .semi => "Semi" | .assign => "Assign" | .question => "Question"
  | .colon => "Colon" | .plus => "Plus" | .minus => "Minus" | .star => "Star"
  | .slash => "Slash" | .percent => "Percent" | .lt => "Lt" | .le => "Le" | .gt => "Gt"
  | .ge => "Ge" | .eqEq => "EqEq" | .ne => "Ne" | .bang => "Bang"

/-- The symbol that a character and its successor start, and whether the successor belongs to it. -/
def ofChars? (c : Char) (next : Option Char) : Option (Symbol × Bool) :=
  match c, next with
  | '<', some '=' => some (.le, true)
  | '>', some '=' => some (.ge, true)
  | '=', some '=' => some (.eqEq, true)
  | '!', some '=' => some (.ne, true)
  | '(', _ => some (.lParen, false)
  | ')', _ => some (.rParen, false)
  | '\x7b', _ => some (.lBrace, false)
  | '\x7d', _ => some (.rBrace, false)
  | ',', _ => some (.comma, false)
  | ';', _ => some (.semi, false)
  | '=', _ => some (.assign, false)
  | '?', _ => some (.question, false)
  | ':', _ => some (.colon, false)
  | '+', _ => some (.plus, false)
  | '-', _ => some (.minus, false)
  | '*', _ => some (.star, false)
  | '/', _ => some (.slash, false)
  | '%', _ => some (.percent, false)
  | '<', _ => some (.lt, false)
  | '>', _ => some (.gt, false)
  | '!', _ => some (.bang, false)
  | _, _ => none

/-- The operators that compare: none of them chains with another. -/
def isComparison : Symbol → Bool
  | .lt | .le | .gt | .ge | .eqEq | .ne => true
  | _ => false

/-- The operators of sums, which associate to the left. -/
def isAdditive : Symbol → Bool
  | .plus | .minus => true
  | _ => false

/-- The operators of products, which associate to the left. -/
def isMultiplicative : Symbol → Bool
  | .star | .slash | .percent => true
  | _ => false

end Symbol

/-- What a token is. -/
inductive Lexeme where
  | ident (name : String)
  | int (n : Int64)
  | float (x : Float)
  | keyword (k : Keyword)
  | symbol (s : Symbol)
deriving Inhabited

namespace Lexeme

/-- Floats in messages are written with an exponent from `10 ^ 16` on and below `10 ^ (-4)`. -/
def floatLayout : Number.Layout := ⟨some (-4, 16), false⟩

/-- The token in messages. -/
def describe : Lexeme → String
  | .ident name => s!"Ident({Text.quotedWord name})"
  | .int n => s!"Int({n.toInt})"
  | .float x => s!"Float({floatLayout.text x})"
  | .keyword k => k.describe
  | .symbol s => s.describe

end Lexeme

/-- A lexeme and the line on which it starts, counted from one. -/
structure Token where
  lexeme : Lexeme
  line : Nat

namespace Token

/-- The token is this symbol. -/
def isSymbol (t : Token) (s : Symbol) : Bool :=
  match t.lexeme with
  | .symbol s' => s' == s
  | _ => false

/-- The token is this reserved word. -/
def isKeyword (t : Token) (k : Keyword) : Bool :=
  match t.lexeme with
  | .keyword k' => k' == k
  | _ => false

end Token

/-! ## Errors -/

/-- What the grammar asks for at a place. -/
inductive Expected where
  | symbol (s : Symbol)
  | commaOrClose
  | functionWord
  | ifWord
  | functionName
  | parameterName
  | expression
deriving Repr, DecidableEq

def Expected.describe : Expected → String
  | .symbol s => s!"`{s.spelling}`"
  | .commaOrClose => "`,` or `)`"
  | .functionWord => "`fn`"
  | .ifWord => "`if`"
  | .functionName => "function name"
  | .parameterName => "parameter name"
  | .expression => "expression"

/-- Why a text is not a program. Each error is located on a line. -/
inductive SourceError where
  | unexpectedCharacter (line : Nat) (c : Char)
  | integerOutOfRange (line : Nat) (digits : String)
  /-- `none` for the end of the text. -/
  | unexpected (line : Nat) (expected : Expected) (found : Option Lexeme)
  | duplicateParameter (line : Nat) (name : String)

namespace SourceError

def line : SourceError → Nat
  | .unexpectedCharacter l _ | .integerOutOfRange l _ | .unexpected l _ _
  | .duplicateParameter l _ => l

/-- The message after the line number. -/
def reason : SourceError → String
  | .unexpectedCharacter _ c => s!"unexpected character `{c}`"
  | .integerOutOfRange _ digits => s!"integer literal `{digits}` out of range"
  | .unexpected _ expected none => s!"expected {expected.describe}, found end of input"
  | .unexpected _ expected (some t) => s!"expected {expected.describe}, found {t.describe}"
  | .duplicateParameter _ name => s!"duplicate parameter `{name}`"

def message (e : SourceError) : String := s!"line {e.line}: {e.reason}"

end SourceError

end Interpose.Source
