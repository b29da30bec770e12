import Interpose.Proofs.Number.Unsigned
import Interpose.Proofs.Source.Derived
import Interpose.Proofs.Source.Scanning

/-!
# Literals of a program text

Whether two operands are the same is decided by comparing values, and the comparison of doubles is
not equality. It is equality for the literals of a program text, because a sign is an operator there
and no part of a number. So every literal that a text has is *plain*: it is no double, or its sign
bit is clear and it is a number.
-/

set_option autoImplicit false

namespace Interpose

/-! ## Plain values -/

/-- A value that is equal to what it compares equal to, and to nothing else. -/
def Value.IsPlain : Value → Prop
  | .float x => Number.IsUnsigned x
  | _ => True

theorem Value.IsPlain.beq_self {x : Value} (h : x.IsPlain) : (x == x) = true := by
  cases x with
  | nothing => rfl
  | float x => exact Number.IsUnsigned.beq_self h
  | bool b => exact beq_self_eq_true b
  | int n => exact beq_self_eq_true n
  | func f => exact beq_self_eq_true f
  | hook k => exact beq_self_eq_true k

theorem Value.IsPlain.eq_of_beq {x y : Value} (h : x.IsPlain) (h' : y.IsPlain)
    (heq : (x == y) = true) : x = y := by
  cases x with
  | nothing => cases y with | nothing => rfl | _ => cases heq
  | float x =>
    cases y with
    | float y => rw [Number.IsUnsigned.eq_of_beq h h' heq]
    | _ => cases heq
  | bool b => cases y with | bool b' => rw [LawfulBEq.eq_of_beq (a := b) heq] | _ => cases heq
  | int n => cases y with | int n' => rw [LawfulBEq.eq_of_beq (a := n) heq] | _ => cases heq
  | func f => cases y with | func f' => rw [LawfulBEq.eq_of_beq (a := f) heq] | _ => cases heq
  | hook k => cases y with | hook k' => rw [LawfulBEq.eq_of_beq (a := k) heq] | _ => cases heq

namespace Source

mutual

/-- All literals of the expression are plain. -/
def Expr.IsPlain : Expr → Prop
  | .name _ => True
  | .lit x => x.IsPlain
  | .call callee args => callee.IsPlain ∧ Expr.ArePlain args
  | .choose cond onTrue onFalse => cond.IsPlain ∧ onTrue.IsPlain ∧ onFalse.IsPlain

def Expr.ArePlain : List Expr → Prop
  | [] => True
  | e :: es => e.IsPlain ∧ Expr.ArePlain es

end

mutual

/-- All literals of the statement are plain. -/
def Stmt.IsPlain : Stmt → Prop
  | .assign _ _ e | .expr _ e | .giveBack _ e => e.IsPlain
  | .ifThen _ cond onTrue => cond.IsPlain ∧ Stmt.ArePlain onTrue
  | .ifElse _ cond onTrue onFalse => cond.IsPlain ∧ Stmt.ArePlain onTrue ∧ Stmt.ArePlain onFalse
  | .whileLoop _ cond body => cond.IsPlain ∧ Stmt.ArePlain body

def Stmt.ArePlain : List Stmt → Prop
  | [] => True
  | st :: rest => st.IsPlain ∧ Stmt.ArePlain rest

end

/-! ## Scanning -/

/-- A double among the tokens is plain. -/
def Lexeme.IsPlain : Lexeme → Prop
  | .float x => Number.IsUnsigned x
  | _ => True

/-- All doubles among the tokens are plain. -/
def ArePlain (ts : List Token) : Prop := ∀ t ∈ ts, t.lexeme.IsPlain

theorem scanInteger_cases {line : Nat} {whole rest : List Char} {r : Lexeme × List Char}
    (h : scanNumber.scanInteger line whole rest = .ok r) : ∃ n, r.1 = .int n := by
  unfold scanNumber.scanInteger at h
  split at h
  · cases h
    exact ⟨_, rfl⟩
  · cases h

theorem scanNumber_cases {line : Nat} {cs : List Char} {r : Lexeme × List Char}
    (h : scanNumber line cs = .ok r) :
    (∃ n, r.1 = .int n) ∨ ∃ x, r.1 = .float x ∧ Number.IsUnsigned x := by
  unfold scanNumber at h
  dsimp only at h
  split at h
  · split at h
    · cases h
      exact .inr ⟨_, rfl, Number.isUnsigned_nearestDouble _ _⟩
    · exact .inl (scanInteger_cases h)
  · exact .inl (scanInteger_cases h)

/-- The first token of a text is a number, a word that starts with its first character, or a
symbol. -/
theorem scanLexeme_cases {line : Nat} {c : Char} {cs : List Char} {r : Lexeme × List Char}
    (h : scanLexeme line c cs = .ok r) :
    ((∃ n, r.1 = .int n) ∨ ∃ x, r.1 = .float x ∧ Number.IsUnsigned x)
      ∨ (∃ rest, isWordStart c = true ∧ r.1 = .ofWord (String.ofList (c :: rest)))
      ∨ ∃ s, r.1 = .symbol s := by
  unfold scanLexeme at h
  split at h
  · exact .inl (scanNumber_cases h)
  · split at h
    · next hstart =>
      cases h
      exact .inr (.inl ⟨_, hstart, rfl⟩)
    · split at h
      · cases h
        exact .inr (.inr ⟨_, rfl⟩)
      · cases h
        exact .inr (.inr ⟨_, rfl⟩)
      · cases h

theorem plain_scanLexeme {line : Nat} {c : Char} {cs : List Char} {r : Lexeme × List Char}
    (h : scanLexeme line c cs = .ok r) : r.1.IsPlain := by
  rcases scanLexeme_cases h with (⟨n, hr⟩ | ⟨x, hr, hx⟩) | ⟨rest, -, hr⟩ | ⟨s, hr⟩
  · rw [hr]
    trivial
  · rw [hr]
    exact hx
  · rw [hr, Lexeme.ofWord]
    split <;> trivial
  · rw [hr]
    trivial

/-- What every lexeme has that is scanned at the front of a text, the tokens of a text have. -/
theorem forall_scanFrom {P : Lexeme → Prop}
    (hP : ∀ {line c cs r}, scanLexeme line c cs = .ok r → P r.1) {line : Nat} {text : List Char}
    {ts : List Token} (h : scanFrom line text = .ok ts) : ∀ t ∈ ts, P t.lexeme := by
  have hscanned := scanned_of_scanFrom h
  clear h
  induction hscanned with
  | nil => exact nofun
  | newline _ ih => exact ih
  | blank _ _ _ ih => exact ih
  | comment _ ih => exact ih
  | token _ _ hscan _ ih => exact List.forall_mem_cons.2 ⟨hP hscan, ih⟩

theorem plain_scanFrom {line : Nat} {text : List Char} {ts : List Token}
    (h : scanFrom line text = .ok ts) :
    ArePlain ts := forall_scanFrom plain_scanLexeme h

/-! ## Trees

The tree of a phrase has no literals but those of its tokens. The relations that make up the grammar
refer to each other, so each induction is over all of them at once. -/

theorem plain_append {ts ts' : List Token} : ArePlain (ts ++ ts') ↔ ArePlain ts ∧ ArePlain ts' :=
  List.forall_mem_append

theorem plain_cons {t : Token} {ts : List Token} :
    ArePlain (t :: ts) ↔ t.lexeme.IsPlain ∧ ArePlain ts :=
  List.forall_mem_cons

theorem plain_atom {x : Lexeme} {e : Expr} (h : x.IsPlain) (hatom : x.atom? = some e) :
    e.IsPlain := by
  cases x with
  | float x =>
    cases hatom
    exact h
  | keyword k => cases k <;> cases hatom <;> trivial
  | symbol s => cases hatom
  | int i =>
    cases hatom
    trivial
  | ident name =>
    cases hatom
    trivial

theorem Phrase.plain {k : Level} {ts : List Token} {e : Expr} (h : Phrase k ts e) :
    ArePlain ts → e.IsPlain := by
  refine @Phrase.rec (fun _ ts e _ => ArePlain ts → e.IsPlain)
    (fun ts es _ => ArePlain ts → Expr.ArePlain es) (fun ts es _ => ArePlain ts →
      Expr.ArePlain es) ?comparison ?choose ?sum ?compare ?product ?add ?unary ?multiply
    ?calls ?sign ?primary ?call ?atom ?parens ?none ?some ?last ?more k ts e h
  case comparison | sum | product | unary | calls | primary | some => exact fun _ ih => ih
  case compare | add | multiply =>
    intro ts ts₁ a b s op l _ _ _ iha ihb hplain
    obtain ⟨hts, hts₁⟩ := plain_append.1 hplain
    exact ⟨trivial, iha hts, ihb (plain_cons.1 hts₁).2, trivial⟩
  case choose =>
    intro ts ts₁ ts₂ c a b l l' _ _ _ ihc iha ihb hplain
    obtain ⟨hts, hts₂⟩ := plain_append.1 hplain
    obtain ⟨hts, hts₁⟩ := plain_append.1 hts
    exact ⟨ihc hts, iha (plain_cons.1 hts₁).2, ihb (plain_cons.1 hts₂).2⟩
  case sign =>
    intro ts a s op l _ _ ih hplain
    exact ⟨trivial, ih (plain_cons.1 hplain).2, trivial⟩
  case call =>
    intro ts ts₁ f args l l' _ _ ihf ihargs hplain
    obtain ⟨hts, hts₁⟩ := plain_append.1 (plain_append.1 hplain).1
    exact ⟨ihf hts, ihargs (plain_cons.1 hts₁).2⟩
  case atom =>
    intro x e l hatom hplain
    exact plain_atom (plain_cons.1 hplain).1 hatom
  case parens =>
    intro ts e l l' _ ih hplain
    exact ih (plain_cons.1 (plain_append.1 hplain).1).2
  case none => exact fun _ => trivial
  case last => exact fun _ ih hplain => ⟨ih hplain, trivial⟩
  case more =>
    intro ts ts₁ e es l _ _ ihe ihes hplain
    obtain ⟨hts, hts₁⟩ := plain_append.1 hplain
    exact ⟨ihe hts, ihes (plain_cons.1 hts₁).2⟩

theorem Braced.plain {strict : Bool} {ts : List Token} {body : List Stmt}
    (h : Braced strict ts body) : ArePlain ts → Stmt.ArePlain body := by
  refine @Braced.rec strict (fun ts st _ => ArePlain ts → st.IsPlain)
    (fun ts st _ => ArePlain ts → st.IsPlain) (fun ts body _ => ArePlain ts → Stmt.ArePlain body)
    (fun ts body _ => ArePlain ts → Stmt.ArePlain body)
    ?assign ?conditional ?whileLoop ?giveBack ?giveNothing ?expr ?ifThen ?ifElse ?elseIf ?mk ?nil
      ?cons ts body h
  case assign =>
    intro ts ends e name l l' he _ hplain
    exact he.plain (plain_cons.1 (plain_cons.1 (plain_append.1 hplain).1).2).2
  case conditional => exact fun _ ih => ih
  case whileLoop =>
    intro ts ts₁ c body l hc _ ih hplain
    obtain ⟨hts, hts₁⟩ := plain_append.1 hplain
    exact ⟨hc.plain (plain_cons.1 hts).2, ih hts₁⟩
  case giveBack =>
    intro ts ends e l he _ hplain
    exact he.plain (plain_cons.1 (plain_append.1 hplain).1).2
  case giveNothing => exact fun _ _ => trivial
  case expr =>
    intro t ts ends e he _ hplain
    exact he.plain (plain_append.1 hplain).1
  case ifThen =>
    intro ts ts₁ c a l hc _ ih hplain
    obtain ⟨hts, hts₁⟩ := plain_append.1 hplain
    exact ⟨hc.plain (plain_cons.1 hts).2, ih hts₁⟩
  case ifElse =>
    intro ts ts₁ ts₂ c a b l l' hc _ _ iha ihb hplain
    obtain ⟨hts, hts₂⟩ := plain_append.1 hplain
    obtain ⟨hts, hts₁⟩ := plain_append.1 hts
    exact ⟨hc.plain (plain_cons.1 hts).2, iha hts₁, ihb (plain_cons.1 hts₂).2⟩
  case elseIf =>
    intro ts ts₁ ts₂ c a st l l' hc _ _ iha ih hplain
    obtain ⟨hts, hts₂⟩ := plain_append.1 hplain
    obtain ⟨hts, hts₁⟩ := plain_append.1 hts
    exact ⟨hc.plain (plain_cons.1 hts).2, iha hts₁, ih (plain_cons.1 hts₂).2, trivial⟩
  case mk =>
    intro ts body l l' _ ih hplain
    exact ih (plain_cons.1 (plain_append.1 hplain).1).2
  case nil => exact fun _ => trivial
  case cons =>
    intro ts ts₁ st rest _ _ ihst ihrest hplain
    obtain ⟨hts, hts₁⟩ := plain_append.1 hplain
    exact ⟨ihst hts, ihrest hts₁⟩

theorem Program.plain {strict : Bool} {ts : List Token} {ds : List Function}
    (h : Program strict ts ds) (hplain : ArePlain ts) : ∀ d ∈ ds, Stmt.ArePlain d.body := by
  induction h with
  | nil => exact List.forall_mem_nil _
  | cons hd _ ih =>
    obtain ⟨hts, hts₁⟩ := plain_append.1 hplain
    refine List.forall_mem_cons.2 ⟨?_, ih hts₁⟩
    cases hd with
    | mk _ hbody => exact hbody.plain (plain_cons.1 (plain_append.1 hts).2).2

/-- **All literals of a program text are plain.** -/
theorem plain_readProgram {text : String} {ds : List Function} (h : readProgram text = .ok ds) :
    ∀ d ∈ ds, Stmt.ArePlain d.body := by
  unfold readProgram at h
  rcases hscan : scan text with e | ts
  · rw [hscan] at h
    cases h
  · rw [hscan] at h
    exact (program_of_readFunctions ts h).1.plain (plain_scanFrom hscan)

end Source

end Interpose
