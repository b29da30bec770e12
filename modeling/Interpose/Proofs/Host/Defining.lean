import Mathlib.Order.Nat
import Interpose.Proofs.Source.Reading
import Interpose.Proofs.Host.Kept

/-!
# Definitions that are refused

The functions of a source text are defined one after another, and so are the primitive operators. A
name that stands for a hook cannot be defined, and neither can one that stands for a number under
which there is no function. Defining functions makes no name stand for a hook, so whether a name is
refused for that reason can be seen in the host as it was before.

A text that cannot be read defines nothing. A text with a name that is refused is not taken as a
whole, though: what stands before that name is defined and stays defined, what stands after it is
not, and nothing else happens. Only where the refused name is the first one is the host left as it
was.
-/

set_option autoImplicit false

namespace Interpose

open Run

variable {V : Vocabulary}

namespace Host

variable {h h' : Host V} {fn : Function V} {fns : List (Function V)} {f : FuncId} {e : Fault}

/-! ## One function -/

/-- The name cannot be defined in the host, for the reason that the fault gives. -/
inductive Refuses (h : Host V) (name : String) : Fault → Prop
  | hook {k : HookId} : h.globals.get? name = some (.hook k) → Refuses h name (.boundToHook name)
  | unregistered {f : FuncId} : h.globals.get? name = some (.func f) → h.functions.size ≤ f.index →
    Refuses h name (.unregistered name f)

/-- A function is refused for its name only. -/
theorem install_eq_error : h.install fn = .error e ↔ h.Refuses fn.name e := by
  unfold install
  constructor
  · intro hinstall
    split at hinstall
    · next f hf =>
      split at hinstall
      · cases hinstall
      · next hbound =>
        cases hinstall
        exact .unregistered hf (Nat.le_of_not_lt hbound)
    · next k hk =>
      cases hinstall
      exact .hook hk
    · cases hinstall
  · intro hrefuses
    cases hrefuses with
    | hook hk => rw [hk]
    | unregistered hf hbound =>
      rw [hf]
      exact if_neg (Nat.not_lt.2 hbound)

/-- The second host is the first with functions defined under these names, and with nothing else
changed. A name that stood for a function keeps its number, and a number keeps its function and what
was compiled for it unless one of the names stood for it. -/
structure DefinedAt (h : Host V) (names : List String) (h' : Host V) : Prop where
  rest : h' = { h with functions := h'.functions, globals := h'.globals, compiled := h'.compiled }
  size_le : h.functions.size ≤ h'.functions.size
  other : ∀ name ∉ names, h'.globals.get? name = h.globals.get? name
  named : ∀ name ∈ names, ∃ f, h'.globals.get? name = some (.func f) ∧ f.index < h'.functions.size
    ∧ (h.globals.get? name = some (.func f) ∨ h.functions.size ≤ f.index)
  kept : ∀ f, f.index < h.functions.size → (∀ name ∈ names, h.globals.get? name ≠ some (.func f)) →
    h'.function? f = h.function? f ∧ h'.compiled.get? f = h.compiled.get? f

theorem definedAt_addFunction (h : Host V) (fn : Function V) :
    h.DefinedAt [fn.name] (h.addFunction fn).1 where
  rest := rfl
  size_le := (Nat.le_succ _).trans_eq (Array.size_push fn).symm
  other name hname := by
    have hne : fn.name ≠ name := fun heq => hname (heq ▸ List.mem_singleton_self _)
    exact (Table.get?_insert ..).trans (if_neg hne)
  named name hname := by
    obtain rfl := List.mem_singleton.1 hname
    refine ⟨_, (Table.get?_insert ..).trans (if_pos rfl), ?_, .inr le_rfl⟩
    exact (Nat.lt_succ_self _).trans_eq (Array.size_push fn).symm
  kept f hlt _ := ⟨(Array.getElem?_push_lt hlt).trans (Array.getElem?_eq_getElem hlt).symm, rfl⟩

theorem definedAt_replaceFunction (hf : h.globals.get? fn.name = some (.func f))
    (hlt : f.index < h.functions.size) : h.DefinedAt [fn.name] (h.replaceFunction f fn) where
  rest := rfl
  size_le := Array.size_setIfInBounds.ge
  other _ _ := rfl
  named name hname := by
    obtain rfl := List.mem_singleton.1 hname
    exact ⟨f, hf, Array.size_setIfInBounds.symm ▸ hlt, .inl hf⟩
  kept f' _ hother := by
    have hne : f ≠ f' := by
      rintro rfl
      exact hother fn.name (List.mem_singleton_self _) hf
    have hindex : f.index ≠ f'.index :=
      fun hi => hne (by cases f; cases f'; exact congrArg FuncId.mk hi)
    exact ⟨Array.getElem?_setIfInBounds_ne hindex, (Table.get?_erase ..).trans (if_neg hne)⟩

theorem definedAt_install (hinstall : h.install fn = .ok (h', f)) : h.DefinedAt [fn.name] h' := by
  unfold install at hinstall
  split at hinstall
  · next f₀ hf₀ =>
    split at hinstall
    · next hlt =>
      cases hinstall
      exact definedAt_replaceFunction hf₀ hlt
    · cases hinstall
  · cases hinstall
  · cases hinstall
    exact definedAt_addFunction h fn

/-! ## One function after another -/

namespace DefinedAt

variable {h₁ : Host V} {names names' : List String}

theorem refl (h : Host V) : h.DefinedAt [] h where
  rest := rfl
  size_le := le_rfl
  other _ _ := rfl
  named _ hname := (List.not_mem_nil hname).elim
  kept _ _ _ := ⟨rfl, rfl⟩

theorem trans (hfirst : h.DefinedAt names h₁) (hsecond : h₁.DefinedAt names' h') :
    h.DefinedAt (names ++ names') h' where
  rest := by
    rw [hsecond.rest, hfirst.rest]
  size_le := hfirst.size_le.trans hsecond.size_le
  other name hname := by
    rw [List.mem_append, not_or] at hname
    exact (hsecond.other name hname.2).trans (hfirst.other name hname.1)
  named name hname := by
    by_cases hlater : name ∈ names'
    · obtain ⟨f, hf, hlt, hold | hnew⟩ := hsecond.named name hlater
      · by_cases hearlier : name ∈ names
        · obtain ⟨f₁, hf₁, -, hcase⟩ := hfirst.named name hearlier
          obtain rfl : f₁ = f := by
            rw [hf₁] at hold
            cases hold
            rfl
          exact ⟨f₁, hf, hlt, hcase⟩
        · exact ⟨f, hf, hlt, .inl ((hfirst.other name hearlier).symm.trans hold)⟩
      · exact ⟨f, hf, hlt, .inr (hfirst.size_le.trans hnew)⟩
    · obtain ⟨f, hf, hlt, hcase⟩ :=
        hfirst.named name ((List.mem_append.1 hname).resolve_right hlater)
      exact ⟨f, (hsecond.other name hlater).trans hf, lt_of_lt_of_le hlt hsecond.size_le, hcase⟩
  kept f hlt hother := by
    obtain ⟨hfunction, hcompiled⟩ :=
      hfirst.kept f hlt fun name hname => hother name (List.mem_append_left _ hname)
    -- a name that was defined meanwhile has its old number, which is another one, or a new one
    have hmeanwhile : ∀ name ∈ names', h₁.globals.get? name ≠ some (.func f) := by
      intro name hname hf
      by_cases hearlier : name ∈ names
      · obtain ⟨f₁, hf₁, -, hcase⟩ := hfirst.named name hearlier
        rw [hf] at hf₁
        cases hf₁
        rcases hcase with hold | hnew
        · exact hother name (List.mem_append_left _ hearlier) hold
        · exact absurd hlt (Nat.not_lt.2 hnew)
      · exact hother name (List.mem_append_right _ hname)
          ((hfirst.other name hearlier).symm.trans hf)
    obtain ⟨hfunction', hcompiled'⟩ := hsecond.kept f (lt_of_lt_of_le hlt hfirst.size_le) hmeanwhile
    exact ⟨hfunction'.trans hfunction, hcompiled'.trans hcompiled⟩

/-- What is refused after other definitions was refused before them. -/
theorem refuses (hh : h.DefinedAt names h') {name : String} (hrefuses : h'.Refuses name e) :
    h.Refuses name e := by
  have hother : name ∉ names := by
    intro hname
    obtain ⟨f, hf, hlt, -⟩ := hh.named name hname
    cases hrefuses with
    | hook hk =>
      rw [hf] at hk
      cases hk
    | unregistered hf' hbound =>
      rw [hf] at hf'
      cases hf'
      exact absurd hlt (Nat.not_lt.2 hbound)
  have hsame := hh.other name hother
  cases hrefuses with
  | hook hk => exact .hook (hsame.symm.trans hk)
  | unregistered hf hbound => exact .unregistered (hsame.symm.trans hf) (hh.size_le.trans hbound)

end DefinedAt

/-- Functions that are all defined are defined one by one. -/
theorem installAll_cons_eq_ok {rest : List (Function V)} {fs : List FuncId} :
    h.installAll (fn :: rest) = (h', .ok fs)
      ↔ ∃ h₁ f fs', h.install fn = .ok (h₁, f) ∧ h₁.installAll rest = (h', .ok fs')
        ∧ fs = f :: fs' := by
  rw [installAll]
  rcases h.install fn with e | ⟨h₁, f⟩
  · simp
  · dsimp only
    rcases hrest : h₁.installAll rest with ⟨h₂, e | fs'⟩
    · simp [Except.map, hrest]
    · simp [Except.map, hrest, and_assoc, eq_comm]

theorem installAll_cons_eq_error {rest : List (Function V)} :
    h.installAll (fn :: rest) = (h', .error e)
      ↔ (h' = h ∧ h.install fn = .error e)
        ∨ ∃ h₁ f, h.install fn = .ok (h₁, f) ∧ h₁.installAll rest = (h', .error e) := by
  rw [installAll]
  rcases h.install fn with e' | ⟨h₁, f⟩
  · simp [eq_comm]
  · dsimp only
    rcases hrest : h₁.installAll rest with ⟨h₂, e' | fs'⟩
    · simp [Except.map, hrest]
    · simp [Except.map, hrest]

/-- Functions are defined up to the first that is refused. -/
theorem installAll_eq_error (hall : h.installAll fns = (h', .error e)) :
    ∃ done fn rest fs, fns = done ++ fn :: rest ∧ h.installAll done = (h', .ok fs)
      ∧ h'.install fn = .error e := by
  induction fns generalizing h with
  | nil => cases hall
  | cons fn rest ih =>
    rcases installAll_cons_eq_error.1 hall with ⟨rfl, hrefused⟩ | ⟨h₁, f, hinstall, hrest⟩
    · exact ⟨[], fn, rest, [], rfl, rfl, hrefused⟩
    · obtain ⟨done, fn', rest', fs, rfl, hdone, hrefused⟩ := ih hrest
      exact ⟨fn :: done, fn', rest', f :: fs, rfl,
        installAll_cons_eq_ok.2 ⟨h₁, f, fs, hinstall, hdone, rfl⟩, hrefused⟩

theorem definedAt_installAll {fs : List FuncId} (hall : h.installAll fns = (h', .ok fs)) :
    h.DefinedAt (fns.map (·.name)) h' := by
  induction fns generalizing h fs with
  | nil =>
    cases hall
    exact .refl _
  | cons fn rest ih =>
    obtain ⟨h₁, f, fs', hinstall, hrest, -⟩ := installAll_cons_eq_ok.1 hall
    exact (definedAt_install hinstall).trans (ih hrest)

end Host

/-! ## Requests -/

/-- The functions that are to be defined by a request, where it defines several, or why there are
none. -/
def Request.offered? : Request V → Option (Except Fault (List (Function V)))
  | .define file src => some (Host.sourceFunctions file src)
  | .installPrelude => some (.ok Host.preludeFunctions)
  | _ => none

/-- A request for definitions does just that, and keeps what it has done where it is refused. -/
theorem perform_eq_error_of_offered {E : Embedding V} {h h' : Host V} {n : Nat} {r : Request V}
    {offered : Except Fault (List (Function V))} {e : Fault} (hr : r.offered? = some offered)
    (hrun : perform E n r h = some (.error e, h')) :
    (offered = .error e ∧ h' = h) ∨ ∃ fns, offered = .ok fns
      ∧ h.installAll fns = (h', .error e) := by
  cases n with
  | zero => cases hrun
  | succ n =>
    cases r with
    | define file src =>
      cases hr
      have hdefine : some ((h.define file src).2, (h.define file src).1) = some (.error e, h') :=
        hrun
      unfold Host.define at hdefine
      -- either the text is refused, and nothing was done, or one of its functions is
      rcases hoffered : Host.sourceFunctions file src with e' | fns
      · rw [hoffered] at hdefine
        cases hdefine
        exact .inl ⟨rfl, rfl⟩
      · rw [hoffered] at hdefine
        dsimp only at hdefine
        rcases hall : h.installAll fns with ⟨h₁, result⟩
        rw [hall] at hdefine
        cases hdefine
        exact .inr ⟨fns, rfl, hall⟩
    | installPrelude =>
      cases hr
      rcases hall : h.installAll Host.preludeFunctions with ⟨h₁, result⟩
      have hinstall : some (result.map fun _ => (), h₁) = some (.error e, h') := by
        have hattempt : some ((h.installAll Host.preludeFunctions).2.map fun _ => (),
          (h.installAll Host.preludeFunctions).1) = some (.error e, h') := hrun
        rwa [hall] at hattempt
      cases result with
      | error e' =>
        cases hinstall
        exact .inr ⟨_, rfl, hall⟩
      | ok fs => cases hinstall
    | _ => cases hr

/-- **Refused definitions stop half way.** Where functions of a text or the primitive operators are
to be defined and this fails, either there was nothing to define, because the text cannot be read,
and the host is as it was; or there is a first name that is refused, it was refused from the
beginning, and just the functions before it are defined. Then names other than theirs stand for what
they stood for, functions other than theirs are kept with what was compiled for them, and all else
is as it was. So nothing has changed if no function stands before the one that is refused. -/
theorem definitions_until_refused (E : Embedding V) {h h' : Host V} {n : Nat} {r : Request V}
    {offered : Except Fault (List (Function V))} {e : Fault} (hr : r.offered? = some offered)
    (hrun : perform E n r h = some (.error e, h')) :
    (offered = .error e ∧ h' = h)
      ∨ ∃ done fn rest, offered = .ok (done ++ fn :: rest) ∧ h.Refuses fn.name e
        ∧ (∃ fs, h.installAll done = (h', .ok fs)) ∧ h.DefinedAt (done.map (·.name)) h'
        ∧ (done = [] → h' = h) := by
  rcases perform_eq_error_of_offered hr hrun with hread | ⟨fns, rfl, hall⟩
  · exact .inl hread
  · obtain ⟨done, fn, rest, fs, rfl, hdone, hrefused⟩ := Host.installAll_eq_error hall
    have hdefined := Host.definedAt_installAll hdone
    refine .inr ⟨done, fn, rest, rfl, hdefined.refuses (Host.install_eq_error.1 hrefused),
      ⟨fs, hdone⟩, hdefined, ?_⟩
    rintro rfl
    cases hdone
    rfl

/-- A text that can be read is defined function by function. -/
theorem perform_define {E : Embedding V} {n : Nat} {file src : String} {fs : List Source.Function}
    (hread : Source.readProgram src = .ok fs) (h : Host V) : perform E (n + 1) (.define file src) h
      = (fun p => some (p.2, p.1)) (h.installAll (fs.map fun f => ⟨f.name, .source f file⟩)) := by
  show some ((h.define file src).2, (h.define file src).1) = _
  rw [Host.define, Host.sourceFunctions, hread]

/-! ## What a refused definition leaves behind -/

/-- A host with a function and two hooks. -/
def guarding : Host ⟨Unit, Unit, Unit⟩ where
  functions := #[⟨"f", .source ⟨"f", [], [.expr 1 (.lit (.int 1))], 1⟩ "a"⟩]
  hooks := #[⟨⟨"h", []⟩, .empty⟩, ⟨⟨"-", []⟩, .empty⟩]
  globals := ⟨[("f", .func ⟨0⟩), ("h", .hook ⟨0⟩), ("-", .hook ⟨1⟩)]⟩
  compiled := .empty
  backend := ⟨true, true, false⟩
  maxDepth := 8
  depth := 0
  serial := 0
  memory := ()

theorem reached_guarding : guarding.Reached redefining := by
  have hsource := (Host.Reached.bare ⟨true, true, false⟩ 8 ()).requested
    (show perform redefining 1 (.define "a" "fn f() { 1 }") _ = some (.ok [⟨0⟩], _) by cbv)
  have hhook := hsource.requested (show perform redefining 1 (.registerHook ⟨"h", []⟩) _
    = some (.ok ⟨0⟩, _) by cbv)
  exact hhook.requested (show perform redefining 1 (.registerHook ⟨"-", []⟩) _
    = some (.ok ⟨1⟩, guarding) by cbv)

/-- The first operator is defined in that host, the second is refused. -/
theorem definitions_until_refused_guarding :
    ∃ h' fn, ∃ done rest : List (Function ⟨Unit, Unit, Unit⟩),
      perform redefining 1 .installPrelude guarding = some (.error (.boundToHook "-"), h')
      ∧ Host.preludeFunctions = done ++ fn :: rest ∧ guarding.Refuses fn.name (.boundToHook "-")
      ∧ guarding.DefinedAt (done.map (·.name)) h' := by
  obtain ⟨h', hrun⟩ : ∃ h', perform redefining 1 .installPrelude guarding
    = some (.error (.boundToHook "-"), h') :=
    ⟨_, by cbv⟩
  rcases definitions_until_refused redefining rfl hrun with
    ⟨hunread, -⟩ | ⟨done, fn, rest, hfns, hrefuses, -, hdefined, -⟩
  · cases hunread
  · exact ⟨h', fn, done, rest, hrun, Except.ok.inj hfns, hrefuses, hdefined⟩

/-- A text with a name that the host refuses, after two that it does not. -/
def refusedText : String := "fn g() { 2 } fn f() { 3 } fn h() { 4 }"

/-- What stands in that text. -/
def refusedFunctions : List Source.Function :=
  [⟨"g", [], [.expr 1 (.lit (.int 2))], 1⟩, ⟨"f", [], [.expr 1 (.lit (.int 3))], 1⟩,
    ⟨"h", [], [.expr 1 (.lit (.int 4))], 1⟩]

theorem readProgram_refusedText : Source.readProgram refusedText = .ok refusedFunctions := by
  rw [Source.readProgram, show Source.scan refusedText = .ok _ by cbv]
  have hone : ∀ {ts : List Source.Token} {f : Source.Function} {r : List Source.Token} {fs : List
      Source.Function},
      Source.Parses (Source.readFunction 1 ts) f r → Source.readFunctions 1 r = .ok fs →
      Source.readFunctions 1 ts = .ok (f :: fs) :=
    fun hf hfs => Source.readFunctions_eq_ok.2 (.inr ⟨_, _, hf, _, hfs, rfl⟩)
  exact hone ⟨_, by cbv⟩
    (hone ⟨_, by cbv⟩ (hone ⟨_, by cbv⟩ (Source.readFunctions_eq_ok.2 (.inl ⟨rfl, rfl⟩))))

/-- Definitions that fail may leave changes behind: a new function with its name, another function
under an old number, and what was compiled for that number dropped. -/
theorem refused_definitions_remain :
    guarding.Reached redefining
    ∧ (∃ h h', perform redefining 8 (.call (.func ⟨0⟩) []) guarding = some (.ok (.int 1), h)
      ∧ perform redefining 1 (.define "b" refusedText) h = some (.error (.boundToHook "h"), h')
      ∧ h.functions.size = 1 ∧ h'.functions.size = 2
      ∧ h.globals.get? "g" = none ∧ h'.globals.get? "g" = some (.func ⟨1⟩)
      ∧ (h.compiled.get? ⟨0⟩).isSome = true ∧ (h'.compiled.get? ⟨0⟩).isSome = false)
    ∧ ∃ h', perform redefining 1 .installPrelude guarding = some (.error (.boundToHook "-"), h')
      ∧ guarding.globals.get? "+" = none ∧ h'.globals.get? "+" = some (.func ⟨1⟩) := by
  refine ⟨reached_guarding,
    ⟨_, _, by cbv, (perform_define readProgram_refusedText _).trans (by cbv), by cbv, by cbv,
    by cbv, by cbv, by cbv, by cbv⟩, _, by cbv, by cbv, by cbv⟩

end Interpose
