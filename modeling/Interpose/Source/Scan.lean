import Interpose.Number.Read
import Interpose.Source.Token
import Interpose.Text.Blank
import Interpose.Text.Numeric

/-!
# From characters to tokens

Blanks and comments separate tokens and are otherwise skipped; a comment runs from `#` to the end of
its line, and only line feeds count lines. A number is a run of ASCII digits, with a fraction if a
point and a digit follow it. A word starts with a letter or an underscore. Each step takes the
longest token that starts at its place, and the first place that starts none is the error.
-/

set_option autoImplicit false

namespace Interpose.Source

open Interpose.Number (isDigit digitsValue)

/-- The character can start a word. -/
def isWordStart (c : Char) : Bool := Text.isAlphabetic c || c == '_'

/-- The character can continue a word. -/
def isWordPart (c : Char) : Bool := Text.isAlphanumeric c || c == '_'

/-- The integer that a run of digits stands for, if it fits. -/
def integer? (ds : List Char) : Option Int64 :=
  let n := digitsValue ds
  if n < Nat.pow 2 63 then some (Int64.ofNat n) else none

/-- The number that starts with a digit, and the text after it. -/
def scanNumber (line : Nat) (cs : List Char) : Except SourceError (Lexeme × List Char) :=
  let whole := cs.takeWhile isDigit
  let rest := cs.dropWhile isDigit
  match rest with
  | '.' :: d :: _ =>
    if isDigit d then
      let places := (rest.drop 1).takeWhile isDigit
      let x := Number.nearestDouble (digitsValue (whole ++ places)) (-(places.length : Int))
      .ok (.float x, (rest.drop 1).dropWhile isDigit)
    else scanInteger line whole rest
  | _ => scanInteger line whole rest
where
  /-- The digits as an integer, or the error that they are too many. -/
  scanInteger (line : Nat) (whole rest : List Char) : Except SourceError (Lexeme × List Char) :=
    match integer? whole with
    | some n => .ok (.int n, rest)
    | none => .error (.integerOutOfRange line (String.ofList whole))

/-- The lexeme that a word is. -/
def Lexeme.ofWord (word : String) : Lexeme :=
  match Keyword.ofString? word with
  | some k => .keyword k
  | none => .ident word

/-- The token that starts with the character `c`, before the text `cs`, and the text after it. -/
def scanLexeme (line : Nat) (c : Char) (cs : List Char) :
    Except SourceError (Lexeme × List Char) :=
  if isDigit c then scanNumber line (c :: cs)
  else if isWordStart c then
    .ok (Lexeme.ofWord (String.ofList (c :: cs.takeWhile isWordPart)), cs.dropWhile isWordPart)
  else
    match Symbol.ofChars? c cs.head? with
    | some (s, true) => .ok (.symbol s, cs.drop 1)
    | some (s, false) => .ok (.symbol s, cs)
    | none => .error (.unexpectedCharacter line c)

/-! ## Every token takes a character -/

theorem length_dropWhile_le {α : Type} (p : α → Bool) (l : List α) :
    (l.dropWhile p).length ≤ l.length :=
  (List.dropWhile_suffix p).length_le

/-- Dropping from a head that satisfies the test drops it. -/
theorem length_dropWhile_cons_le {α : Type} (p : α → Bool) (a : α) (l : List α) (h : p a = true) :
    ((a :: l).dropWhile p).length ≤ l.length := by
  rw [List.dropWhile_cons_of_pos h]
  exact length_dropWhile_le p l

theorem length_scanInteger (line : Nat) (whole rest : List Char) (r : Lexeme × List Char)
    (h : scanNumber.scanInteger line whole rest = .ok r) : r.2 = rest := by
  unfold scanNumber.scanInteger at h
  split at h
  · cases h; rfl
  · cases h

theorem length_scanNumber (line : Nat) (c : Char) (cs : List Char) (r : Lexeme × List Char)
    (hc : isDigit c = true) (h : scanNumber line (c :: cs) = .ok r) : r.2.length ≤ cs.length := by
  have hrest := length_dropWhile_cons_le isDigit c cs hc
  unfold scanNumber at h
  simp only at h
  split at h
  · next d t hd =>
    split at h
    · cases h
      have := length_dropWhile_le isDigit (((c :: cs).dropWhile isDigit).drop 1)
      have := List.length_drop (i := 1) (l := (c :: cs).dropWhile isDigit)
      simp only
      omega
    · rw [length_scanInteger _ _ _ _ h]; exact hrest
  · rw [length_scanInteger _ _ _ _ h]; exact hrest

/-- What is left after a token is no longer than what followed its first character. -/
theorem length_scanLexeme (line : Nat) (c : Char) (cs : List Char) (r : Lexeme × List Char)
    (h : scanLexeme line c cs = .ok r) : r.2.length ≤ cs.length := by
  unfold scanLexeme at h
  split at h
  · next hc => exact length_scanNumber line c cs r hc h
  · split at h
    · cases h; exact length_dropWhile_le isWordPart cs
    · split at h
      · cases h; simp
      · cases h; simp
      · cases h

/-! ## The whole text -/

/-- The tokens of a text that starts on the given line. -/
def scanFrom (line : Nat) (text : List Char) : Except SourceError (List Token) :=
  match text with
  | [] => .ok []
  | c :: cs =>
    if c = '\n' then scanFrom (line + 1) cs
    else if Text.isBlank c then scanFrom line cs
    else if c = '#' then
      have := length_dropWhile_le (· != '\n') cs
      scanFrom line (cs.dropWhile (· != '\n'))
    else
      match h : scanLexeme line c cs with
      | .error e => .error e
      | .ok (lexeme, rest) =>
        have := length_scanLexeme line c cs _ h
        match scanFrom line rest with
        | .error e => .error e
        | .ok ts => .ok (⟨lexeme, line⟩ :: ts)
termination_by text.length
decreasing_by all_goals simp_all; try omega

/-- The tokens of a text. -/
def scan (text : String) : Except SourceError (List Token) := scanFrom 1 text.toList

end Interpose.Source
