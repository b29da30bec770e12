import Mathlib.Algebra.Group.Nat.Defs
import Mathlib.Data.List.TakeWhile
import Interpose.Source.Scan

/-!
# Scanning part after part

The longest token is taken at each place, so what is scanned at a place depends on what follows.
Where nothing goes on from one text into the next, the two are scanned independently: the tokens of
both together are those of the first, then those of the second, which starts on the line on which
the first one ends.

What goes on is a comment until the end of its line, a word or a number with a letter, a digit or
the low line, a number with a point, and a symbol with an equals sign.
-/

set_option autoImplicit false

namespace Interpose

/-! ## Characters -/

namespace Text

/-- Nothing is in two tables that have no code point in common. -/
theorem inRanges_eq_false_of_disjoint {table table' : List (Nat × Nat)} {c : Char}
    (hdisjoint : ∀ r ∈ table, ∀ r' ∈ table', r.2 < r'.1 ∨ r'.2 < r.1)
    (h : inRanges table c = true) : inRanges table' c = false := by
  obtain ⟨r, hr, hlo, hhi⟩ := (inRanges_eq_true_iff table c).1 h
  rw [Bool.eq_false_iff]
  intro h'
  obtain ⟨r', hr', hlo', hhi'⟩ := (inRanges_eq_true_iff table' c).1 h'
  have := hdisjoint r hr r' hr'
  omega

end Text

namespace Source

open Interpose.Number (isDigit digitsValue)

theorem isWordPart_of_isWordStart {c : Char} (h : isWordStart c = true) : isWordPart c = true := by
  unfold isWordStart at h
  unfold isWordPart Text.isAlphanumeric
  rw [Bool.or_assoc, Bool.or_left_comm, h, Bool.or_true]

theorem toNat_lt_of_isDigit {c : Char} (h : isDigit c = true) : c.toNat < 0x80 := by
  have hle : c ≤ '9' := of_decide_eq_true (Bool.and_eq_true_iff.1 h).2
  exact Nat.lt_of_le_of_lt hle (by decide)

theorem isWordPart_of_isDigit {c : Char} (h : isDigit c = true) : isWordPart c = true := by
  have hdigit : c.isDigit = true := h
  rw [isWordPart, Text.isAlphanumeric, Text.isNumeric, if_pos (toNat_lt_of_isDigit h), hdigit,
    Bool.or_true, Bool.true_or]

/-- A blank is no part of a word. -/
theorem isWordPart_of_isBlank {c : Char} (h : Text.isBlank c = true) : isWordPart c = false := by
  -- ASCII is looked through, and beyond it the tables have nothing in common
  by_cases hlt : c.toNat < 0x80
  · have hascii : ∀ n < 0x80, Text.isBlank (Char.ofNat n) = true →
        isWordPart (Char.ofNat n) = false := by
      decide +kernel
    rw [← Char.ofNat_toNat c] at h ⊢
    exact hascii c.toNat hlt h
  · rw [Text.isBlank, if_neg hlt] at h
    have halphabetic : Text.inRanges Text.alphabeticTable c = false :=
      Text.inRanges_eq_false_of_disjoint (by decide +kernel) h
    have hnumeric : Text.inRanges Text.numericTable c = false :=
      Text.inRanges_eq_false_of_disjoint (by decide +kernel) h
    have hline : (c == '_') = false := beq_false_of_ne (by rintro rfl; exact hlt (by decide))
    rw [isWordPart, Text.isAlphanumeric, Text.isAlphabetic, Text.isNumeric, if_neg hlt, if_neg hlt,
      halphabetic, hnumeric, hline]
    rfl

theorem isBlank_of_isWordPart {c : Char} (h : isWordPart c = true) : Text.isBlank c = false :=
  Bool.eq_false_iff.2 fun hblank => by rw [isWordPart_of_isBlank hblank] at h; cases h

theorem ne_newline_of_isBlank {c : Char} (h : Text.isBlank c = false) : c ≠ '\n' := by
  rintro rfl
  exact absurd h (by decide)

theorem ne_hash_of_isWordPart {c : Char} (h : isWordPart c = true) : c ≠ '#' := by
  rintro rfl
  exact absurd h (by decide)

/-! ## Runs of characters -/

/-- The text does not start with a character of the class. -/
def EndsRun (p : Char → Bool) (text : List Char) : Prop := ∀ d, text.head? = some d → p d = false

section Runs

variable {p q : Char → Bool} {run rest text : List Char}

theorem EndsRun.mono (h : EndsRun q text) (hle : ∀ c, p c = true → q c = true) :
    EndsRun p text := fun d hd =>
  Bool.eq_false_iff.2 fun hp => Bool.eq_false_iff.1 (h d hd) (hle d hp)

theorem EndsRun.append (h : EndsRun p rest) (hend : rest = [] → EndsRun p text) :
    EndsRun p (rest ++ text) := by
  cases rest with
  | nil => exact hend rfl
  | cons d rest => exact h

/-- A run is taken as a whole if the text stops there. -/
theorem takeWhile_run (hrun : ∀ d ∈ run, p d = true) (h : EndsRun p rest) :
    (run ++ rest).takeWhile p = run := by
  rw [List.takeWhile_append_of_pos hrun]
  cases rest with
  | nil => exact List.append_nil run
  | cons d rest => rw [List.takeWhile_cons_of_neg (by rw [h d rfl]; exact Bool.false_ne_true),
    List.append_nil]

theorem dropWhile_run (hrun : ∀ d ∈ run, p d = true) (h : EndsRun p rest) :
    (run ++ rest).dropWhile p = rest := by
  rw [List.dropWhile_append_of_pos hrun]
  cases rest with
  | nil => rfl
  | cons d rest => exact List.dropWhile_cons_of_neg (by rw [h d rfl]; exact Bool.false_ne_true)

/-- Every text starts with a run, which may be empty. -/
theorem exists_run (p : Char → Bool) (cs : List Char) :
    ∃ run rest, cs = run ++ rest ∧ (∀ d ∈ run, p d = true) ∧ EndsRun p rest := by
  refine ⟨cs.takeWhile p, cs.dropWhile p, List.takeWhile_append_dropWhile.symm,
    fun d => List.mem_takeWhile_imp, fun d hd => ?_⟩
  have hnot := List.head?_dropWhile_not p cs
  rw [hd] at hnot
  exact hnot

end Runs

/-! ## Numbers -/

/-- The text continues an integer neither with a digit nor with a fraction. -/
structure EndsInteger (rest : List Char) : Prop where
  digits : EndsRun isDigit rest
  fraction : ∀ d tail, rest = '.' :: d :: tail → isDigit d = false

section Numbers

variable {line : Nat} {ds places rest tail text : List Char}

theorem scanNumber_integer (hds : ∀ d ∈ ds, isDigit d = true) (h : EndsInteger rest) :
    scanNumber line (ds ++ rest) = scanNumber.scanInteger line ds rest := by
  unfold scanNumber
  dsimp only
  rw [takeWhile_run hds h.digits, dropWhile_run hds h.digits]
  split
  · next d tail => rw [if_neg (by rw [h.fraction d tail rfl]; exact Bool.false_ne_true)]
  · rfl

theorem scanNumber_fraction (hds : ∀ d ∈ ds, isDigit d = true)
    (hplaces : ∀ d ∈ places, isDigit d = true) (hne : places ≠ []) (h : EndsRun isDigit tail) :
    scanNumber line (ds ++ '.' :: (places ++ tail))
      = .ok (.float (Number.nearestDouble (digitsValue (ds ++ places)) (-(places.length : Int))),
        tail) := by
  have hpoint : EndsRun isDigit ('.' :: (places ++ tail)) := fun d hd => by cases hd; rfl
  obtain ⟨d, places', rfl⟩ := List.exists_cons_of_ne_nil hne
  unfold scanNumber
  dsimp only
  rw [takeWhile_run hds hpoint, dropWhile_run hds hpoint]
  split
  · next d' tail' heq =>
    cases heq
    rw [if_pos (hplaces d List.mem_cons_self), List.drop_one, List.tail_cons,
      takeWhile_run hplaces h, dropWhile_run hplaces h]
  · next hother => exact absurd rfl (hother d (places' ++ tail))

/-- Digits are followed by a fraction or by something else. -/
theorem number_cases (cs : List Char) : ∃ ds rest, cs = ds ++ rest ∧ (∀ d ∈ ds, isDigit d = true)
    ∧ (EndsInteger rest ∨ ∃ places tail, rest = '.' :: (places ++ tail)
      ∧ (∀ d ∈ places, isDigit d = true)
      ∧ places ≠ [] ∧ EndsRun isDigit tail) := by
  obtain ⟨ds, rest, hcs, hds, hstops⟩ := exists_run isDigit cs
  refine ⟨ds, rest, hcs, hds, ?_⟩
  by_cases hfraction : ∃ d tail, rest = '.' :: d :: tail ∧ isDigit d = true
  · obtain ⟨d, tail, hrest, hd⟩ := hfraction
    obtain ⟨places, tail', htail, hplaces, hstops'⟩ := exists_run isDigit tail
    exact .inr ⟨d :: places, tail',
      by rw [hrest, htail, List.cons_append], List.forall_mem_cons.2 ⟨hd,
        hplaces⟩, List.cons_ne_nil d places, hstops'⟩
  · exact .inl ⟨hstops, fun d tail hrest => Bool.eq_false_iff.2 fun hd =>
      hfraction ⟨d, tail, hrest, hd⟩⟩

/-- The decimal value is the library's. -/
theorem digitsValue_eq_ofDigitChars (ds : List Char) : digitsValue ds = Nat.ofDigitChars 10 ds 0 :=
  Nat.ofDigitChars_eq_foldl.symm

theorem integer?_eq_some {n : Int64} (h : n.toInt = Nat.ofDigitChars 10 ds 0) :
    integer? ds = some n := by
  have hlt : Nat.ofDigitChars 10 ds 0 < 2 ^ 63 := by
    have := n.toInt_lt
    omega
  have hn : Int64.ofNat (Nat.ofDigitChars 10 ds 0) = n :=
    Int64.toInt_inj.1 ((Int64.toInt_ofNat_of_lt hlt).trans h.symm)
  rw [integer?, digitsValue_eq_ofDigitChars, hn]
  exact if_pos hlt

theorem integer?_eq_none (h : 2 ^ 63 - 1 < Nat.ofDigitChars 10 ds 0) : integer? ds = none := by
  rw [integer?, digitsValue_eq_ofDigitChars]
  exact if_neg (Nat.not_lt.2 (Nat.le_of_pred_lt h))

theorem exists_toInt_eq {n : Nat} (h : n ≤ 2 ^ 63 - 1) : ∃ m : Int64, m.toInt = n :=
  ⟨Int64.ofNat n, Int64.toInt_ofNat_of_lt (by omega)⟩

end Numbers

/-! ## The first token -/

section Lexemes

variable {line : Nat} {c : Char} {cs rest text : List Char} {lexeme : Lexeme}

theorem isDigit_of_isWordStart (h : isWordStart c = true) : isDigit c = false := by
  refine Bool.eq_false_iff.2 fun hdigit => ?_
  have hlt : c.toNat < 0x80 := toNat_lt_of_isDigit hdigit
  have hascii : ∀ n < 0x80, isWordStart (Char.ofNat n) = true → isDigit (Char.ofNat n) = false := by
    decide +kernel
  rw [← Char.ofNat_toNat c] at h hdigit
  rw [hascii c.toNat hlt h] at hdigit
  cases hdigit

theorem scanLexeme_int {n : Int64} (hds : ∀ d ∈ c :: cs, isDigit d = true) (h : EndsInteger rest)
    (hn : n.toInt = Nat.ofDigitChars 10 (c :: cs) 0) :
    scanLexeme line c (cs ++ rest) = .ok (.int n, rest) := by
  rw [scanLexeme, if_pos (hds c List.mem_cons_self), ← List.cons_append, scanNumber_integer hds h,
    scanNumber.scanInteger, integer?_eq_some hn]

theorem scanLexeme_outOfRange (hds : ∀ d ∈ c :: cs, isDigit d = true) (h : EndsInteger rest)
    (hlarge : 2 ^ 63 - 1 < Nat.ofDigitChars 10 (c :: cs) 0) :
    scanLexeme line c (cs ++ rest)
      = .error (.integerOutOfRange line (String.ofList (c :: cs))) := by
  rw [scanLexeme, if_pos (hds c List.mem_cons_self), ← List.cons_append, scanNumber_integer hds h,
    scanNumber.scanInteger, integer?_eq_none hlarge]

/-- A word is scanned as a whole. -/
theorem scanLexeme_word (hstart : isWordStart c = true) (hcs : ∀ d ∈ cs, isWordPart d = true)
    (h : EndsRun isWordPart rest) :
    scanLexeme line c (cs ++ rest) = .ok (Lexeme.ofWord (String.ofList (c :: cs)), rest) := by
  rw [scanLexeme, isDigit_of_isWordStart hstart, if_neg Bool.false_ne_true, if_pos hstart,
    takeWhile_run hcs h, dropWhile_run hcs h]

/-- No symbol starts as a number or a word does. -/
theorem not_start_of_ofChars? {next : Option Char} {r : Symbol × Bool}
    (h : Symbol.ofChars? c next = some r) : isDigit c = false ∧ isWordStart c = false := by
  unfold Symbol.ofChars? at h
  split at h
  all_goals first
    | exact ⟨by decide, by decide⟩
    | cases h

theorem scanLexeme_single {s : Symbol} (h : Symbol.ofChars? c cs.head? = some (s, false)) :
    scanLexeme line c cs = .ok (.symbol s, cs) := by
  obtain ⟨hdigit, hstart⟩ := not_start_of_ofChars? h
  rw [scanLexeme, hdigit, if_neg Bool.false_ne_true, hstart, if_neg Bool.false_ne_true, h]

theorem scanLexeme_double {s : Symbol} (h : Symbol.ofChars? c (some '=') = some (s, true)) :
    scanLexeme line c ('=' :: cs) = .ok (.symbol s, cs) := by
  obtain ⟨hdigit, hstart⟩ := not_start_of_ofChars? h
  rw [scanLexeme, hdigit, if_neg Bool.false_ne_true, hstart, if_neg Bool.false_ne_true,
    List.head?_cons, h, List.drop_one, List.tail_cons]

/-- Only an equals sign changes a symbol. -/
theorem ofChars?_of_ne {d : Char} (hd : d ≠ '=') :
    Symbol.ofChars? c (some d) = Symbol.ofChars? c none := by
  unfold Symbol.ofChars?
  split <;> simp_all

/-- A symbol of two characters ends with an equals sign. -/
theorem eq_of_ofChars?_true {next : Option Char} {s : Symbol}
    (h : Symbol.ofChars? c next = some (s, true)) : next = some '=' := by
  unfold Symbol.ofChars? at h
  split at h <;> simp_all

end Lexemes

/-! ## Where one text ends and another begins -/

/-- No comment, word, number or symbol of the first text goes on into the second. -/
structure Parted (front text : List Char) : Prop where
  comments : ∀ before note, front = before ++ '#' :: note → '\n' ∈ note
  words : ∀ c, front.getLast? = some c → isWordPart c = true → EndsRun isWordPart text
  signs : ∀ d, text.head? = some d → d ≠ '.' ∧ d ≠ '='

namespace Parted

variable {front rest run text : List Char}

theorem of_append (h : Parted (front ++ rest) text) : Parted rest text where
  comments before note hrest := h.comments (front ++ before) note (by rw [hrest, List.append_assoc])
  words c hc := h.words c (by rw [List.getLast?_append, hc, Option.some_or])
  signs := h.signs

theorem of_cons {c : Char} (h : Parted (c :: rest) text) : Parted rest text :=
  of_append (show Parted ([c] ++ rest) text from h)

/-- If the first text is a run of letters and digits, the run stops there. -/
theorem endsRun (h : Parted run text) (hne : run ≠ []) (hrun : ∀ d ∈ run, isWordPart d = true) :
    EndsRun isWordPart text :=
  h.words _ (List.getLast?_eq_some_getLast hne) (hrun _ (List.getLast_mem hne))

theorem endsRun_digits (h : Parted run text) (hne : run ≠ []) (hrun : ∀ d ∈ run, isDigit d = true) :
    EndsRun isDigit text :=
  (h.endsRun hne fun d hd => isWordPart_of_isDigit (hrun d hd)).mono fun _ => isWordPart_of_isDigit

end Parted

theorem EndsInteger.append {rest text : List Char} (h : EndsInteger rest) (hpoint : rest ≠ ['.'])
    (hsigns : ∀ d, text.head? = some d → d ≠ '.' ∧ d ≠ '=')
    (hend : rest = [] → EndsRun isDigit text) : EndsInteger (rest ++ text) where
  digits := h.digits.append hend
  fraction d tail heq := by
    rcases rest with _ | ⟨c, _ | ⟨d', rest'⟩⟩
    · exact absurd rfl (hsigns '.' (congrArg List.head? heq)).1
    · cases heq
      exact absurd rfl hpoint
    · cases heq
      exact h.fraction d rest' rfl

section Taken

variable {line : Nat} {c : Char} {cs rest ds : List Char} {lexeme : Lexeme}

theorem scanInteger_append (text : List Char)
    (h : scanNumber.scanInteger line ds rest = .ok (lexeme, rest)) :
    scanNumber.scanInteger line ds (rest ++ text) = .ok (lexeme, rest ++ text) := by
  unfold scanNumber.scanInteger at h ⊢
  split at h
  · cases h
    rfl
  · cases h

/-- A number takes digits and a point, and the same ones whatever follows that it does not go on
into. A point at the end is left alone until a digit follows, so what is left must not be a
point. -/
theorem scanNumber_taken (h : scanNumber line (c :: cs) = .ok (lexeme, rest)) :
    ∃ taken, c :: cs = taken ++ rest ∧ (∀ d ∈ taken, isDigit d = true ∨ d = '.')
      ∧ ∀ text, Parted (c :: cs) text → rest ≠ ['.'] →
        scanNumber line (c :: cs ++ text) = .ok (lexeme, rest ++ text) := by
  obtain ⟨ds, rest', hcs, hds, hends | ⟨places, tail, hrest, hplaces, hne, hstops⟩⟩ :=
    number_cases (c :: cs)
  · rw [hcs, scanNumber_integer hds hends] at h
    obtain rfl : rest = rest' := length_scanInteger line ds rest' _ h
    refine ⟨ds, hcs, fun d hd => .inl (hds d hd), fun text hparted hpoint => ?_⟩
    have hends' : EndsInteger (rest ++ text) := by
      refine hends.append hpoint hparted.signs fun hnil => ?_
      rw [hnil, List.append_nil] at hcs
      exact hparted.endsRun_digits (List.cons_ne_nil c cs) (hcs ▸ hds)
    rw [hcs, List.append_assoc, scanNumber_integer hds hends']
    exact scanInteger_append text h
  · subst hrest
    rw [hcs, scanNumber_fraction hds hplaces hne hstops] at h
    cases h
    refine ⟨ds ++ '.' :: places, by rw [hcs, List.append_assoc, List.cons_append], fun d hd => ?_,
      fun text hparted _ => ?_⟩
    · rcases List.mem_append.1 hd with hd | hd
      · exact .inl (hds d hd)
      · exact (List.mem_cons.1 hd).elim .inr fun hd => .inl (hplaces d hd)
    · have hstops' : EndsRun isDigit (rest ++ text) := by
        refine hstops.append fun hnil => ?_
        rw [hcs, hnil, List.append_nil, List.append_cons] at hparted
        exact hparted.of_append.endsRun_digits hne hplaces
      rw [hcs, List.append_assoc, List.cons_append, List.append_assoc,
        scanNumber_fraction hds hplaces hne hstops']

/-- **The first token takes characters of a single line**, and the same ones whatever follows that
it does not go on into. -/
theorem scanLexeme_taken (hblank : Text.isBlank c = false)
    (h : scanLexeme line c cs = .ok (lexeme, rest)) :
    ∃ taken, c :: cs = taken ++ rest ∧ '\n' ∉ taken
      ∧ ∀ text, Parted (c :: cs) text → rest ≠ ['.'] →
      scanLexeme line c (cs ++ text) = .ok (lexeme, rest ++ text) := by
  -- a number
  by_cases hdigit : isDigit c = true
  · rw [scanLexeme, if_pos hdigit] at h
    obtain ⟨taken, hcs, htaken, happend⟩ := scanNumber_taken h
    refine ⟨taken, hcs, fun hmem => absurd (htaken _ hmem) (by decide),
      fun text hparted hpoint => ?_⟩
    rw [scanLexeme, if_pos hdigit]
    exact happend text hparted hpoint
  -- a word
  by_cases hstart : isWordStart c = true
  · obtain ⟨word, rest', rfl, hword, hstops⟩ := exists_run isWordPart cs
    have hall : ∀ d ∈ c :: word, isWordPart d = true :=
      List.forall_mem_cons.2 ⟨isWordPart_of_isWordStart hstart, hword⟩
    rw [scanLexeme_word hstart hword hstops] at h
    cases h
    have hnewline : '\n' ∉ c :: word :=
      fun hmem => ne_newline_of_isBlank (isBlank_of_isWordPart (hall _ hmem)) rfl
    refine ⟨c :: word, rfl, hnewline, fun text hparted _ => ?_⟩
    have hstops' : EndsRun isWordPart (rest ++ text) := by
      refine hstops.append fun hnil => ?_
      rw [hnil, List.append_nil] at hparted
      exact hparted.endsRun (List.cons_ne_nil c word) hall
    rw [List.append_assoc, scanLexeme_word hstart hword hstops']
  -- a symbol: of what follows only an equals sign counts, and none follows from the other text
  have hc : c ≠ '\n' := ne_newline_of_isBlank hblank
  rw [scanLexeme, if_neg hdigit, if_neg hstart] at h
  split at h
  · next s hs =>
    obtain ⟨cs, rfl⟩ := List.head?_eq_some_iff.1 (eq_of_ofChars?_true hs)
    cases h
    refine ⟨[c, '='], rfl, by simpa using hc.symm, fun text _ _ => scanLexeme_double hs⟩
  · next s hs =>
    cases h
    refine ⟨[c], rfl, by simpa using hc.symm, fun text hparted _ => scanLexeme_single ?_⟩
    rcases cs with _ | ⟨d, cs⟩
    · rcases text with _ | ⟨d, text⟩
      · exact hs
      · exact (ofChars?_of_ne (hparted.signs d rfl).2).trans hs
    · exact hs
  · cases h

end Taken

/-! ## The tokens of a text

Each equation is one step of the scan. What has been scanned without an error is a chain of such
steps, and inductions are over that chain. -/

section Steps

variable {line : Nat} {c : Char} {cs rest : List Char} {lexeme : Lexeme}

theorem scanFrom_newline : scanFrom line ('\n' :: cs) = scanFrom (line + 1) cs := by
  rw [scanFrom, if_pos rfl]

theorem scanFrom_blank (hne : c ≠ '\n') (h : Text.isBlank c = true) :
    scanFrom line (c :: cs) = scanFrom line cs := by
  rw [scanFrom, if_neg hne, if_pos h]

theorem scanFrom_comment :
    scanFrom line ('#' :: cs) = scanFrom line (cs.dropWhile (· != '\n')) := by
  rw [scanFrom, if_neg (by decide), if_neg (by decide), if_pos rfl]

theorem scanFrom_token (hblank : Text.isBlank c = false) (hc : c ≠ '#')
    (h : scanLexeme line c cs = .ok (lexeme, rest)) :
    scanFrom line (c :: cs) = (scanFrom line rest).map (⟨lexeme, line⟩ :: ·) := by
  rw [scanFrom, if_neg (ne_newline_of_isBlank hblank), hblank, if_neg Bool.false_ne_true, if_neg hc]
  split
  · next e he => cases h.symm.trans he
  · next lexeme' rest' hok =>
    cases h.symm.trans hok
    dsimp only
    cases scanFrom line rest <;> rfl

theorem scanFrom_error {e : SourceError} (hblank : Text.isBlank c = false) (hc : c ≠ '#')
    (h : scanLexeme line c cs = .error e) : scanFrom line (c :: cs) = .error e := by
  rw [scanFrom, if_neg (ne_newline_of_isBlank hblank), hblank, if_neg Bool.false_ne_true, if_neg hc]
  split
  · next e' he =>
    cases h.symm.trans he
    rfl
  · next hok => cases h.symm.trans hok

theorem isBlank_of_isDigit (h : isDigit c = true) : Text.isBlank c = false :=
  isBlank_of_isWordPart (isWordPart_of_isDigit h)

theorem ne_hash_of_isDigit (h : isDigit c = true) : c ≠ '#' :=
  ne_hash_of_isWordPart (isWordPart_of_isDigit h)

/-- **A run of digits is the integer of its decimal value**, if that fits. -/
theorem scanFrom_int {ds : List Char} {n : Int64} (hne : ds ≠ []) (hds : ∀ d ∈ ds, isDigit d = true)
    (h : EndsInteger rest) (hn : n.toInt = Nat.ofDigitChars 10 ds 0) :
    scanFrom line (ds ++ rest) = (scanFrom line rest).map (⟨.int n, line⟩ :: ·) := by
  obtain ⟨c, cs, rfl⟩ := List.exists_cons_of_ne_nil hne
  have hc : isDigit c = true := hds c List.mem_cons_self
  exact scanFrom_token (isBlank_of_isDigit hc) (ne_hash_of_isDigit hc) (scanLexeme_int hds h hn)

/-- **A run of digits is rejected** if its decimal value does not fit. -/
theorem scanFrom_outOfRange {ds : List Char} (hne : ds ≠ []) (hds : ∀ d ∈ ds, isDigit d = true)
    (h : EndsInteger rest) (hlarge : 2 ^ 63 - 1 < Nat.ofDigitChars 10 ds 0) :
    scanFrom line (ds ++ rest) = .error (.integerOutOfRange line (String.ofList ds)) := by
  obtain ⟨c, cs, rfl⟩ := List.exists_cons_of_ne_nil hne
  have hc : isDigit c = true := hds c List.mem_cons_self
  exact scanFrom_error (isBlank_of_isDigit hc) (ne_hash_of_isDigit hc)
    (scanLexeme_outOfRange hds h hlarge)

end Steps

/-- The text that starts on the line has these tokens, step by step. -/
inductive Scanned : Nat → List Char → List Token → Prop
  | nil {line : Nat} : Scanned line [] []
  | newline {line : Nat} {cs : List Char} {ts : List Token} :
    Scanned (line + 1) cs ts → Scanned line ('\n' :: cs) ts
  | blank {line : Nat} {c : Char} {cs : List Char} {ts : List Token} :
    c ≠ '\n' → Text.isBlank c = true →
    Scanned line cs ts → Scanned line (c :: cs) ts
  | comment {line : Nat} {cs : List Char} {ts : List Token} :
    Scanned line (cs.dropWhile (· != '\n')) ts →
    Scanned line ('#' :: cs) ts
  | token {line : Nat} {c : Char} {cs rest : List Char} {lexeme : Lexeme} {ts : List Token} :
    Text.isBlank c = false → c ≠ '#' → scanLexeme line c cs = .ok (lexeme, rest) →
    Scanned line rest ts →
    Scanned line (c :: cs) (⟨lexeme, line⟩ :: ts)

theorem scanned_of_scanFrom {line : Nat} {text : List Char} {ts : List Token}
    (h : scanFrom line text = .ok ts) : Scanned line text ts := by
  induction line, text using scanFrom.induct generalizing ts with
  | case1 line =>
    rw [scanFrom] at h
    cases h
    exact .nil
  | case2 line cs ih => exact .newline (ih (scanFrom_newline.symm.trans h))
  | case3 line c cs hnewline hblank ih =>
    exact .blank hnewline hblank (ih ((scanFrom_blank hnewline hblank).symm.trans h))
  | case4 line cs _ hnewline hblank ih => exact .comment (ih (scanFrom_comment.symm.trans h))
  | case5 line c cs hnewline hblank hcomment e hscan =>
    cases (scanFrom_error (Bool.eq_false_iff.2 hblank) hcomment hscan).symm.trans h
  | case6 line c cs hnewline hblank hcomment lexeme rest hscan _ e hrest ih =>
    rw [scanFrom_token (Bool.eq_false_iff.2 hblank) hcomment hscan, hrest] at h
    cases h
  | case7 line c cs hnewline hblank hcomment lexeme rest hscan _ ts' hrest ih =>
    rw [scanFrom_token (Bool.eq_false_iff.2 hblank) hcomment hscan, hrest] at h
    cases h
    exact .token (Bool.eq_false_iff.2 hblank) hcomment hscan (ih hrest)

/-- A point that is left alone is no token. -/
theorem Scanned.ne_point {line : Nat} {text : List Char} {ts : List Token}
    (h : Scanned line text ts) : text ≠ ['.'] := by
  rintro rfl
  cases h with
  | blank _ hblank _ => exact absurd hblank (by decide)
  | token _ _ hscan _ => cases hscan

/-- **Two texts are scanned one after the other** if nothing goes on from the first into the
second. -/
theorem Scanned.append {line : Nat} {front text : List Char} {ts : List Token}
    (h : Scanned line front ts) (hparted : Parted front text) :
    scanFrom line (front ++ text) = (scanFrom (line + front.count '\n') text).map (ts ++ ·) := by
  induction h with
  | nil =>
    rw [List.nil_append, List.count_nil, Nat.add_zero]
    cases scanFrom _ text <;> rfl
  | @newline line cs ts _ ih =>
    rw [List.cons_append, scanFrom_newline, ih hparted.of_cons, List.count_cons_self,
      Nat.add_right_comm, Nat.add_assoc]
  | @blank line c cs ts hne hblank _ ih =>
    rw [List.cons_append, scanFrom_blank hne hblank, ih hparted.of_cons, List.count_cons_of_ne hne]
  | @comment line cs ts _ ih =>
    obtain ⟨note, rest, rfl, hnote, hstops⟩ := exists_run (· != '\n') cs
    have hnone : '\n' ∉ note := fun hmem => absurd (hnote _ hmem) (by decide)
    -- the comment ends before the second text
    have hne : rest ≠ [] := by
      rintro rfl
      exact hnone (List.append_nil note ▸ hparted.comments [] _ rfl)
    have hstops' : EndsRun (· != '\n') (rest ++ text) := hstops.append fun hnil => absurd hnil hne
    have hcount : ('#' :: (note ++ rest)).count '\n' = rest.count '\n' := by
      rw [List.count_cons_of_ne (by decide), List.count_append, List.count_eq_zero.2 hnone,
        Nat.zero_add]
    rw [dropWhile_run hnote hstops] at ih
    rw [List.cons_append, scanFrom_comment, List.append_assoc, dropWhile_run hnote hstops',
      ih (.of_append hparted.of_cons), hcount]
  | @token line c cs rest lexeme ts hblank hc hscan hrest ih =>
    obtain ⟨taken, hcs, htaken, happend⟩ := scanLexeme_taken hblank hscan
    have hrest' := ih (Parted.of_append (hcs ▸ hparted))
    have hcount : (c :: cs).count '\n' = rest.count '\n' := by
      rw [hcs, List.count_append, List.count_eq_zero.2 htaken, Nat.zero_add]
    rw [List.cons_append, scanFrom_token hblank hc (happend text hparted hrest.ne_point),
      hrest', hcount]
    cases scanFrom _ text <;> rfl

end Source

end Interpose
