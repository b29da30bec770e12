import Interpose.Proofs.Source.Literals
import Interpose.Proofs.Source.Names

/-!
# The names that a program can bind

A program binds the parameters of its functions and the names that it assigns. All of these stand in
the text, and what stands there as a name is a word: it starts with a letter or with the low line.
So no program binds a name that starts in another way, such as those of most operators.
-/

set_option autoImplicit false

namespace Interpose

namespace Source

/-- The name starts as a word does. -/
def IsWord (name : String) : Prop := ∃ c, name.toList.head? = some c ∧ isWordStart c = true

/-- A name among the tokens is a word. -/
def Lexeme.IsWord : Lexeme → Prop
  | .ident name => Source.IsWord name
  | _ => True

/-- All names among the tokens are words. -/
def AreWords (ts : List Token) : Prop := ∀ t ∈ ts, t.lexeme.IsWord

theorem word_scanLexeme {line : Nat} {c : Char} {cs : List Char} {r : Lexeme × List Char}
    (h : scanLexeme line c cs = .ok r) : r.1.IsWord := by
  rcases scanLexeme_cases h with (⟨n, hr⟩ | ⟨x, hr, -⟩) | ⟨rest, hstart, hr⟩ | ⟨s, hr⟩
  · rw [hr]
    trivial
  · rw [hr]
    trivial
  · rw [hr, Lexeme.ofWord]
    split
    · trivial
    · exact ⟨c, by rw [String.toList_ofList]; rfl, hstart⟩
  · rw [hr]
    trivial

/-! ## Trees -/

theorem words_append {ts ts' : List Token} : AreWords (ts ++ ts') ↔ AreWords ts ∧ AreWords ts' :=
  List.forall_mem_append

theorem words_cons {t : Token} {ts : List Token} :
    AreWords (t :: ts) ↔ t.lexeme.IsWord ∧ AreWords ts :=
  List.forall_mem_cons

/-- What a body assigns are words. -/
theorem Braced.words {strict : Bool} {ts : List Token} {body : List Stmt}
    (h : Braced strict ts body) : AreWords ts → ∀ n ∈ assignedBy body, IsWord n := by
  refine @Braced.rec strict (fun ts st _ => AreWords ts → ∀ n ∈ st.addAssigned [], IsWord n)
    (fun ts st _ => AreWords ts → ∀ n ∈ st.addAssigned [], IsWord n)
    (fun ts body _ => AreWords ts → ∀ n ∈ assignedBy body, IsWord n)
    (fun ts body _ => AreWords ts → ∀ n ∈ assignedBy body, IsWord n)
    ?assign ?conditional ?whileLoop ?giveBack ?giveNothing ?expr ?ifThen ?ifElse ?elseIf ?mk ?nil
      ?cons ts body h
  case assign =>
    intro ts ends e name l l' _ _ hwords n hn
    rw [Stmt.addAssigned, Names.mem_insert] at hn
    obtain rfl := hn.resolve_right List.not_mem_nil
    exact (words_cons.1 (words_append.1 hwords).1).1
  case conditional => exact fun _ ih => ih
  case whileLoop =>
    intro ts ts₁ c body l _ _ ih hwords
    exact ih (words_append.1 hwords).2
  case giveBack | expr => exact fun _ _ _ _ hn => absurd hn List.not_mem_nil
  case giveNothing => exact fun _ _ _ hn => absurd hn List.not_mem_nil
  case ifThen =>
    intro ts ts₁ c a l _ _ ih hwords
    exact ih (words_append.1 hwords).2
  case ifElse =>
    intro ts ts₁ ts₂ c a b l l' _ _ _ iha ihb hwords n hn
    obtain ⟨hts, hts₂⟩ := words_append.1 hwords
    rw [Stmt.addAssigned, Stmt.mem_addAssignedAll] at hn
    exact hn.elim (ihb (words_cons.1 hts₂).2 n) (iha (words_append.1 hts).2 n)
  case elseIf =>
    intro ts ts₁ ts₂ c a st l l' _ _ _ iha ih hwords n hn
    obtain ⟨hts, hts₂⟩ := words_append.1 hwords
    rw [Stmt.addAssigned, Stmt.mem_addAssignedAll, mem_assignedBy_cons] at hn
    rcases hn with (hn | hn) | hn
    · exact ih (words_cons.1 hts₂).2 n hn
    · exact absurd hn List.not_mem_nil
    · exact iha (words_append.1 hts).2 n hn
  case mk =>
    intro ts body l l' _ ih hwords
    exact ih (words_cons.1 (words_append.1 hwords).1).2
  case nil => exact fun _ _ hn => absurd hn List.not_mem_nil
  case cons =>
    intro ts ts₁ st rest _ _ ihst ihrest hwords n hn
    obtain ⟨hts, hts₁⟩ := words_append.1 hwords
    rw [mem_assignedBy_cons] at hn
    exact hn.elim (ihst hts n) (ihrest hts₁ n)

theorem NameList.words {ts : List Token} {names : List String} (h : NameList ts names)
    (hwords : AreWords ts) : ∀ n ∈ names, IsWord n := by
  induction h with
  | last => exact List.forall_mem_singleton.2 (words_cons.1 hwords).1
  | more _ ih =>
    obtain ⟨hname, hrest⟩ := words_cons.1 hwords
    exact List.forall_mem_cons.2 ⟨hname, ih (words_cons.1 hrest).2⟩

theorem Program.words {strict : Bool} {ts : List Token} {ds : List Function}
    (h : Program strict ts ds) (hwords : AreWords ts) :
    ∀ d ∈ ds, ∀ n, n ∈ d.params ∨ n ∈ assignedBy d.body → IsWord n := by
  induction h with
  | nil => exact List.forall_mem_nil _
  | cons hd _ ih =>
    obtain ⟨hts, hts₁⟩ := words_append.1 hwords
    refine List.forall_mem_cons.2 ⟨fun n hn => ?_, ih hts₁⟩
    cases hd with
    | mk hparams hbody =>
      obtain ⟨hfront, hback⟩ := words_append.1 hts
      rcases hn with hn | hn
      · cases hparams with
        | none => cases hn
        | some hnames =>
          exact hnames.words (words_cons.1 (words_cons.1 (words_cons.1 hfront).2).2).2 n hn
      · exact hbody.words (words_cons.1 hback).2 n hn

/-- **All names that a program binds are words.** -/
theorem words_readProgram {text : String} {ds : List Function} (h : readProgram text = .ok ds) :
    ∀ d ∈ ds, ∀ n, n ∈ d.params ∨ n ∈ assignedBy d.body → IsWord n := by
  unfold readProgram at h
  rcases hscan : scan text with e | ts
  · rw [hscan] at h
    cases h
  · rw [hscan] at h
    exact (program_of_readFunctions ts h).1.words (forall_scanFrom word_scanLexeme hscan)

/-- Of the names of operators only that of the sign is a word. -/
theorem Level.not_isWord {k : Level} {s : Symbol} {op : String} (h : k.operator? s = some op)
    (hneg : op ≠ "neg") : ¬IsWord op := by
  have hfront : ∃ c, op.toList.head? = some c ∧ isWordStart c = false := by
    unfold Level.operator? at h
    split at h
    all_goals first
      | exact absurd (Option.some.inj h).symm hneg
      | cases h; exact ⟨_, rfl, by decide⟩
      | cases h
  rintro ⟨c, hc, hstart⟩
  obtain ⟨c', hc', hstart'⟩ := hfront
  obtain rfl := Option.some.inj (hc.symm.trans hc')
  cases hstart.symm.trans hstart'

end Source

end Interpose
