import Interpose.Proofs.Source.Scanning

/-!
# Scanning undoes every layout

A text is laid out from tokens: each is spelled, and white space and comments stand around them, at
least one character between two tokens. Scanning gives the tokens back, each with the line on which
it starts.

An integer may be spelled with leading zeros. What decides whether a run of digits is an integer is
its decimal value alone.

Lines are counted without a bound. A counter of 32 bits agrees with this up to `2 ^ 32 - 2` line
feeds.
-/

set_option autoImplicit false

namespace Interpose.Source

open Interpose.Number (isDigit)

/-! ## Gaps -/

/-- White space, and comments that end with their line. -/
inductive IsGap : List Char → Prop
  | nil : IsGap []
  | blank {c : Char} {cs : List Char} : Text.isBlank c = true → IsGap cs → IsGap (c :: cs)
  | comment {note cs : List Char} : '\n' ∉ note → IsGap cs → IsGap ('#' :: (note ++ '\n' :: cs))

/-- The text starts with white space or a comment, or it is empty. -/
def StartsGap (text : List Char) : Prop :=
  ∀ d, text.head? = some d → Text.isBlank d = true ∨ d = '#'

namespace IsGap

variable {gap : List Char}

theorem startsGap (h : IsGap gap) : StartsGap gap := by
  intro d hd
  cases h with
  | nil => cases hd
  | blank hblank _ =>
    cases hd
    exact .inl hblank
  | comment _ _ =>
    cases hd
    exact .inr rfl

/-- **A gap is skipped**, and its line feeds are counted. -/
theorem scanFrom (h : IsGap gap) (line : Nat) (text : List Char) :
    scanFrom line (gap ++ text) = Source.scanFrom (line + gap.count '\n') text := by
  induction h generalizing line with
  | nil => rfl
  | @blank c cs hblank _ ih =>
    by_cases hc : c = '\n'
    · rw [hc, List.cons_append, scanFrom_newline, ih, List.count_cons_self, Nat.add_right_comm,
        Nat.add_assoc]
    · rw [List.cons_append, scanFrom_blank hc hblank, ih, List.count_cons_of_ne hc]
  | @comment note cs hnote _ ih =>
    -- the note is dropped up to its line feed, which is then counted
    have hrun : ∀ d ∈ note, (d != '\n') = true :=
      fun d hd => bne_iff_ne.2 fun heq => hnote (heq ▸ hd)
    have hstops : EndsRun (· != '\n') ('\n' :: (cs ++ text)) := by
      intro d hd
      cases hd
      rfl
    have hcount : ('#' :: (note ++ '\n' :: cs)).count '\n' = cs.count '\n' + 1 := by
      rw [List.count_cons_of_ne (by decide), List.count_append, List.count_eq_zero.2 hnote,
        Nat.zero_add, List.count_cons_self]
    rw [List.cons_append, scanFrom_comment, List.append_assoc, List.cons_append,
      dropWhile_run hrun hstops, scanFrom_newline, ih, hcount, Nat.add_right_comm, Nat.add_assoc]

end IsGap

/-! ## Spellings -/

/-- The characters are a spelling of the lexeme. -/
inductive Spells : List Char → Lexeme → Prop
  | ident {c : Char} {cs : List Char} : isWordStart c = true → (∀ d ∈ cs, isWordPart d = true) →
    (∀ k : Keyword, k.spelling ≠ String.ofList (c :: cs)) →
    Spells (c :: cs) (.ident (String.ofList (c :: cs)))
  | int {n : Int64} (zeros : Nat) : 0 ≤ n.toInt →
    Spells (List.replicate zeros '0' ++ Nat.toDigits 10 n.toInt.toNat) (.int n)
  | keyword (k : Keyword) : Spells k.spelling.toList (.keyword k)
  | symbol (s : Symbol) : Spells s.spelling.toList (.symbol s)

/-- A reserved word is read from its spelling only. -/
theorem Keyword.spelling_of_ofString? {word : String} {k : Keyword}
    (h : Keyword.ofString? word = some k) : k.spelling = word := by
  unfold Keyword.ofString? at h
  split at h
  all_goals cases h
  all_goals rfl

theorem Lexeme.ofWord_of_ne {word : String} (h : ∀ k : Keyword, k.spelling ≠ word) :
    Lexeme.ofWord word = .ident word := by
  rcases hword : Keyword.ofString? word with _ | k
  · rw [Lexeme.ofWord, hword]
  · exact absurd (Keyword.spelling_of_ofString? hword) (h k)

theorem Lexeme.ofWord_spelling (k : Keyword) : Lexeme.ofWord k.spelling = .keyword k := by
  rw [Lexeme.ofWord, Keyword.ofString?_spelling]

theorem Keyword.exists_toList_spelling (k : Keyword) :
    ∃ c cs, k.spelling.toList = c :: cs ∧ isWordStart c = true ∧ ∀ d ∈ cs, isWordPart d = true := by
  cases k <;> exact ⟨_, _, rfl, by decide, List.all_eq_true.1 (by decide)⟩

/-- The spelling of a symbol is scanned as this symbol. -/
theorem Symbol.exists_toList_spelling (s : Symbol) (line : Nat) :
    ∃ c cs, s.spelling.toList = c :: cs
      ∧ Text.isBlank c = false ∧ '#' ∉ c :: cs ∧ scanLexeme line c cs = .ok (.symbol s, []) := by
  cases s
  case le | ge | eqEq | ne => exact ⟨_, _, rfl, by decide, by decide, scanLexeme_double rfl⟩
  all_goals exact ⟨_, _, rfl, by decide, by decide, scanLexeme_single rfl⟩

/-- Decimal digits behind any number of zeros are digits. -/
theorem isDigit_of_leading_zeros (zeros n : Nat) :
    ∀ d ∈ List.replicate zeros '0' ++ Nat.toDigits 10 n, isDigit d = true := by
  refine List.forall_mem_append.2
    ⟨fun d hd => ?_, fun d => Nat.isDigit_of_mem_toDigits (by decide) (by decide)⟩
  rw [List.eq_of_mem_replicate hd]
  decide

/-- Zeros in front do not change the value. -/
theorem ofDigitChars_leading_zeros (zeros n : Nat) :
    Nat.ofDigitChars 10 (List.replicate zeros '0' ++ Nat.toDigits 10 n) 0 = n := by
  rw [Nat.ofDigitChars_append, Nat.ofDigitChars_replicate_zero, Nat.mul_zero,
    Nat.ofDigitChars_ten_toDigits]

theorem endsRun_nil (p : Char → Bool) : EndsRun p [] := nofun

theorem endsInteger_nil : EndsInteger [] := ⟨endsRun_nil isDigit, nofun⟩

namespace Spells

variable {spelling : List Char} {lexeme : Lexeme}

/-- A word is scanned as a whole if nothing follows. -/
theorem exists_first_word {c : Char} {cs : List Char} (hstart : isWordStart c = true)
    (hcs : ∀ d ∈ cs, isWordPart d = true) (line : Nat) : Text.isBlank c = false ∧ '#' ∉ c :: cs
      ∧ scanLexeme line c cs = .ok (Lexeme.ofWord (String.ofList (c :: cs)), []) := by
  have hall : ∀ d ∈ c :: cs, isWordPart d = true :=
    List.forall_mem_cons.2 ⟨isWordPart_of_isWordStart hstart, hcs⟩
  refine ⟨isBlank_of_isWordPart (hall c List.mem_cons_self),
    fun hmem => ne_hash_of_isWordPart (hall _ hmem) rfl, ?_⟩
  rw [← scanLexeme_word hstart hcs (endsRun_nil isWordPart), List.append_nil]

/-- **Each spelling is scanned as its lexeme**, and no comment begins in it. -/
theorem exists_first (h : Spells spelling lexeme) (line : Nat) : ∃ c cs, spelling = c :: cs
    ∧ Text.isBlank c = false ∧ '#' ∉ c :: cs ∧ scanLexeme line c cs = .ok (lexeme, []) := by
  cases h with
  | @ident c cs hstart hcs hne =>
    have hfirst := exists_first_word hstart hcs line
    rw [Lexeme.ofWord_of_ne hne] at hfirst
    exact ⟨c, cs, rfl, hfirst⟩
  | @int n zeros hn =>
    obtain ⟨c, cs, hspelling⟩ := List.exists_cons_of_ne_nil
      (List.append_ne_nil_of_right_ne_nil (List.replicate zeros '0')
        (Nat.toDigits_ne_nil (n := n.toInt.toNat)))
    -- leading zeros are digits too, and count for nothing
    have hds : ∀ d ∈ c :: cs, isDigit d = true :=
      hspelling ▸ isDigit_of_leading_zeros zeros n.toInt.toNat
    have hvalue : n.toInt = Nat.ofDigitChars 10 (c :: cs) 0 := by
      rw [← hspelling, ofDigitChars_leading_zeros, Int.toNat_of_nonneg hn]
    refine ⟨c, cs, hspelling, isBlank_of_isDigit (hds c List.mem_cons_self),
      fun hmem => ne_hash_of_isDigit (hds _ hmem) rfl, ?_⟩
    rw [← scanLexeme_int hds endsInteger_nil hvalue, List.append_nil]
  | keyword k =>
    obtain ⟨c, cs, hspelling, hstart, hcs⟩ := k.exists_toList_spelling
    have hfirst := exists_first_word hstart hcs line
    rw [← hspelling, String.ofList_toList, Lexeme.ofWord_spelling, hspelling] at hfirst
    exact ⟨c, cs, hspelling, hfirst⟩
  | symbol s => exact s.exists_toList_spelling line

theorem scanned (h : Spells spelling lexeme) (line : Nat) :
    Scanned line spelling [⟨lexeme, line⟩] := by
  obtain ⟨c, cs, rfl, hblank, hhash, hscan⟩ := h.exists_first line
  exact .token hblank (List.ne_of_not_mem_cons hhash).symm hscan .nil

theorem count_newline (h : Spells spelling lexeme) : spelling.count '\n' = 0 := by
  obtain ⟨c, cs, rfl, hblank, -, hscan⟩ := h.exists_first 1
  obtain ⟨taken, hcs, htaken, -⟩ := scanLexeme_taken hblank hscan
  rw [hcs, List.append_nil]
  exact List.count_eq_zero.2 htaken

/-- Nothing goes on from a spelling into a gap. -/
theorem parted (h : Spells spelling lexeme) {text : List Char} (htext : StartsGap text) :
    Parted spelling text where
  comments before note heq := by
    obtain ⟨c, cs, rfl, -, hhash, -⟩ := h.exists_first 1
    exact absurd (heq ▸ List.mem_append_right before List.mem_cons_self) hhash
  words _ _ _ d hd := by
    rcases htext d hd with hblank | rfl
    · exact isWordPart_of_isBlank hblank
    · decide
  signs d hd := by
    rcases htext d hd with hblank | rfl
    · constructor <;> rintro rfl <;> exact absurd hblank (by decide)
    · decide

end Spells

/-! ## Layouts -/

/-- A lexeme as it stands in a text, behind the gap that separates it from what precedes. -/
structure Piece where
  gap : List Char
  spelling : List Char
  lexeme : Lexeme
  isGap : IsGap gap
  spells : Spells spelling lexeme

namespace Piece

def text (p : Piece) : List Char := p.gap ++ p.spelling

theorem count_newline_text (p : Piece) : p.text.count '\n' = p.gap.count '\n' := by
  rw [text, List.count_append, p.spells.count_newline, Nat.add_zero]

end Piece

/-- The text of the pieces, before its last gap. -/
def written (ps : List Piece) : List Char := ps.flatMap Piece.text

/-- The tokens of a text that starts on the given line. Each is on the line that is reached by the
line feeds before its first character. -/
def tokensFrom (line : Nat) (ps : List Piece) : List Token :=
  ps.mapIdx fun k p => ⟨p.lexeme, line + (written (ps.take k) ++ p.gap).count '\n'⟩

/-- No two lexemes touch. -/
def Separated (ps : List Piece) : Prop := ∀ p ∈ ps.tail, p.gap ≠ []

theorem tokensFrom_cons (line : Nat) (p : Piece) (ps : List Piece) : tokensFrom line (p :: ps)
    = ⟨p.lexeme, line + p.gap.count '\n'⟩ :: tokensFrom (line + p.gap.count '\n') ps := by
  have hline : ∀ (k : Nat) (q : Piece),
      line + (written ((p :: ps).take (k + 1)) ++ q.gap).count '\n'
        = line + p.gap.count '\n' + (written (ps.take k) ++ q.gap).count '\n' := by
    intro k q
    rw [List.take_succ_cons, written, List.flatMap_cons, List.append_assoc, List.count_append,
      p.count_newline_text, Nat.add_assoc, written]
  -- behind the first piece each prefix begins with it
  rw [tokensFrom, List.mapIdx_cons]
  simp only [hline]
  rfl

/-- **The tokens of a layout are scanned back**, with their lines. -/
theorem scanFrom_written {ps : List Piece} {last : List Char} (hps : Separated ps)
    (hlast : IsGap last) (line : Nat) :
    scanFrom line (written ps ++ last) = .ok (tokensFrom line ps) := by
  induction ps generalizing line with
  | nil =>
    have hskip := hlast.scanFrom line []
    rw [List.append_nil] at hskip
    rw [written, List.flatMap_nil, List.nil_append, hskip, scanFrom]
    rfl
  | cons p ps ih =>
    have hps' : Separated ps := fun q hq => hps q (List.mem_of_mem_tail hq)
    -- a gap follows, that of the next piece or the last one
    have hstarts : StartsGap (written ps ++ last) := by
      cases ps with
      | nil => exact hlast.startsGap
      | cons q ps =>
        obtain ⟨d, gap, hgap⟩ := List.exists_cons_of_ne_nil (hps q List.mem_cons_self)
        have hq := q.isGap.startsGap
        rw [hgap] at hq
        rw [written, List.flatMap_cons, Piece.text, hgap]
        exact hq
    have htext : written (p :: ps) ++ last = p.gap ++ (p.spelling ++ (written ps ++ last)) := by
      rw [written, List.flatMap_cons, Piece.text, List.append_assoc, List.append_assoc, written]
    rw [htext, p.isGap.scanFrom, (p.spells.scanned _).append (p.spells.parted hstarts),
      p.spells.count_newline, Nat.add_zero, ih hps', tokensFrom_cons]
    rfl

/-! ## Runs of digits -/

/-- What goes on from one text into the next is decided by the next character. -/
theorem Parted.append_right {front ds : List Char} (h : Parted front ds) (hne : ds ≠ [])
    (rest : List Char) : Parted front (ds ++ rest) := by
  obtain ⟨d, ds, rfl⟩ := List.exists_cons_of_ne_nil hne
  exact ⟨h.comments, h.words, h.signs⟩

/-- Behind a text that has been scanned, scanning goes on. -/
theorem scan_append {front text : List Char} {ts : List Token}
    (h : scan (String.ofList front) = .ok ts) (hparted : Parted front text) :
    scan (String.ofList (front ++ text))
      = (scanFrom (1 + front.count '\n') text).map (ts ++ ·) := by
  rw [scan, String.toList_ofList] at h ⊢
  exact (scanned_of_scanFrom h).append hparted

/-- **Scanning undoes every layout.** A text that is laid out from lexemes is scanned as these
lexemes, each on the line that is reached by the line feeds before its first character. And wherever
scanning comes to a run of digits without a fraction, the run is rejected if its decimal value is
above `2 ^ 63 - 1`; otherwise it is the integer of this value, and scanning goes on behind it. -/
theorem scan_undoes_layout :
    (∀ (ps : List Piece) (last : List Char), Separated ps → IsGap last →
      scan (String.ofList (written ps ++ last)) = .ok (tokensFrom 1 ps))
    ∧ ∀ (front ds rest : List Char) (ts : List Token),
      scan (String.ofList front) = .ok ts → Parted front ds → ds ≠ [] →
      (∀ d ∈ ds, isDigit d = true) → EndsInteger rest →
      (2 ^ 63 - 1 < Nat.ofDigitChars 10 ds 0 → scan (String.ofList (front ++ (ds ++ rest)))
        = .error (.integerOutOfRange (1 + front.count '\n') (String.ofList ds)))
      ∧ (Nat.ofDigitChars 10 ds 0 ≤ 2 ^ 63 - 1 → ∃ n : Int64, n.toInt = Nat.ofDigitChars 10 ds 0
        ∧ scan (String.ofList (front ++ (ds ++ rest)))
          = (scanFrom (1 + front.count '\n') rest).map
            (ts ++ ⟨.int n, 1 + front.count '\n'⟩ :: ·)) := by
  refine ⟨fun ps last hps hlast => ?_, fun front ds rest ts hfront hparted hne hds hends =>
    ⟨fun hlarge => ?_,
    fun hfits => ?_⟩⟩
  · rw [scan, String.toList_ofList]
    exact scanFrom_written hps hlast 1
  · rw [scan_append hfront (hparted.append_right hne rest),
      scanFrom_outOfRange hne hds hends hlarge]
    rfl
  · obtain ⟨n, hn⟩ := exists_toInt_eq hfits
    refine ⟨n, hn, ?_⟩
    rw [scan_append hfront (hparted.append_right hne rest), scanFrom_int hne hds hends hn]
    cases scanFrom _ rest <;> rfl

/-- Both at a text that assigns an integer, and at one with comments. -/
theorem scan_undoes_layout_assigned :
    scan "# note\n if 007\n<= x# end\n"
        = .ok [⟨.keyword .ifWord, 2⟩, ⟨.int 7, 2⟩, ⟨.symbol .le, 3⟩, ⟨.ident "x", 3⟩]
      ∧ scan "x = 9223372036854775808;" = .error (.integerOutOfRange 1 "9223372036854775808") := by
  have hspace : IsGap [' '] := .blank (by decide) .nil
  have hx : Spells ['x'] (.ident "x") :=
    @Spells.ident 'x' [] (by decide) nofun (by intro k; cases k <;> decide)
  have hfront : scan (String.ofList ['x', ' ', '=', ' '])
      = .ok [⟨.ident "x", 1⟩, ⟨.symbol .assign, 1⟩] :=
    scan_undoes_layout.1 [⟨[], ['x'], .ident "x", .nil, hx⟩,
      ⟨[' '], ['='], .symbol .assign, hspace, .symbol .assign⟩]
      [' '] (by simp [Separated]) hspace
  have hparted : Parted ['x', ' ', '=', ' '] "9223372036854775808".toList := by
    refine ⟨fun before note heq => ?_, fun c hc hword => ?_, fun d hd => ?_⟩
    · exact absurd (heq ▸ List.mem_append_right before List.mem_cons_self)
        (by decide : '#' ∉ ['x', ' ', '=', ' '])
    · cases hc
      exact absurd hword (by decide)
    · cases hd
      decide
  constructor
  · exact scan_undoes_layout.1
      [⟨'#' :: (" note".toList ++ '\n' :: [' ']), ['i', 'f'], .keyword .ifWord,
        .comment (by decide) hspace,
          .keyword .ifWord⟩,
        ⟨[' '], ['0', '0', '7'], .int 7, hspace, .int (n := 7) 2 (by decide)⟩,
        ⟨['\n'], ['<', '='], .symbol .le, .blank (by decide) .nil, .symbol .le⟩,
        ⟨[' '], ['x'], .ident "x", hspace, hx⟩]
      ('#' :: (" end".toList ++ '\n' :: [])) (by simp [Separated]) (.comment (by decide) .nil)
  · exact (scan_undoes_layout.2 ['x', ' ', '=', ' '] "9223372036854775808".toList
      [';'] _ hfront hparted (by decide)
      (List.all_eq_true.1 (by decide)) ⟨fun d hd => by cases hd; rfl, nofun⟩).1 (by decide)

end Interpose.Source
